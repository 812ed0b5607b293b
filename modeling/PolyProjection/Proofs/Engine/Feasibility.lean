import Mathlib
import PolyProjection.Proofs.Engine.Guard

/-! Every search of a run that starts with all on their sides keeps them there, and its events come exactly where a
multiplier is zero or a column is on its bound. -/

namespace PolyProjection

set_option linter.unusedSectionVars false

variable {K : Type} [Field K] [LinearOrder K] [IsStrictOrderedRing K]

/-- The numbers that are at least one, by a row and less sharply by the bound of the column, and a negative number as
the point to project. -/
def Problem.boundedHalfLine : Checked (Except ProblemError (Problem ℚ)) :=
  Problem.create ⟨1, 1, #[0, 1], #[0], #[1]⟩ #[.finite 1] #[.posInf] #[.finite 0] #[.posInf] #[-1 / 2]

namespace Engine

variable {e e' g : Engine K} {p : Problem K} {settings : Settings K} {rows cols : IndexRange} {job : Job}
  {s : LineSearch K} {out : LineOutcome K} {j k : ℕ}

/-- A search of a run begins after the vectors have been computed and some steps been made. -/
theorem Searches.runs (hp : e.problem.Accepted) (hr : e.Regular) (h : e.Searches g job) :
    ∃ e₀ e₁, Quiet e e₀ ∧ Rebased e₀ e₁ ∧ Runs e₁ g ∧ job.Covers g.problem.tree := by
  obtain ⟨hq, hstart, hq₀, hjobs, hbefore, hq₁, hsolve, hq₂⟩ := h
  rename_i e₀ g g₀ g₁ g₂ g₃ before before' later
  have hp₀ : e₀.problem.Accepted := hq.sameState.problem ▸ hp
  have hr₀ := hq.sameState.regular hr
  obtain ⟨e₁, hrebased, hruns, hcovers⟩ := hstart.runs hp₀ hr₀
  have hruns₀ : Runs e₁ g₀ := hruns.tail (.quiet hq₀)
  obtain ⟨hr', hproblem, -⟩ := hruns₀.regular (hrebased.regular hr₀)
  have hbefore' := (Runs.of_processJobs (by rw [hproblem, hrebased.problem_eq]; exact hp₀) hr' (fun h hh => by
    rw [hq₀.sameState.problem]
    exact hcovers h (hjobs ▸ List.mem_append_left _ hh)) hbefore).1
  have hall := (((hruns₀.trans hbefore').tail (.quiet hq₁)).tail (.solve hsolve)).tail (.quiet hq₂)
  refine ⟨e₀, e₁, hq, hrebased, hall, ?_⟩
  rw [(Runs.regular hall (hrebased.regular hr₀)).2.1, ← hproblem, hq₀.sameState.problem]
  exact hcovers job (hjobs ▸ List.mem_append_right _ List.mem_cons_self)

/-- What a search of a run starts from. -/
structure Searchable (p : Problem K) (g : Engine K) (job : Job) : Prop where
  problem : g.problem = p
  covers : job.Covers p.tree
  regular : g.Regular
  feasible : g.DualFeasible
  balanced : g.Balanced
  anchored : g.Anchored
  outside : g.Outside

/-- If all are on their sides at the start of a run, they are so when a search begins. -/
theorem Searches.searchable (hp : p.Accepted) (he : Reachable p settings e) (hsides : e.OnSides e.startDual)
    (h : e.Searches g job) : Searchable p g job := by
  have hrests := he.rests hp
  have hp' : e.problem.Accepted := hrests.problem ▸ hp
  obtain ⟨e₀, e₁, hq, hrebased, hruns, hjob⟩ := h.runs hp' hrests.regular
  have hsame := hq.sameState
  have hr₀ := hsame.regular hrests.regular
  have hr₁ := hrebased.regular hr₀
  have hstill : ∀ i, coord e₀.dlambda i = 0 := by
    intro i
    rw [hsame.dlambda]
    exact hrests.still i
  have hsides₀ : e₀.OnSides e₀.startDual := by
    obtain ⟨_, _, _, _, _, rfl⟩ := hq
    exact ⟨hsides.row, hsides.column⟩
  have hf₁ : e₁.DualFeasible := by
    refine hrebased.dualFeasible fun i hi => ?_
    have hrow := hsides₀.row i hi
    rwa [startDual, if_pos hi, ← add_zero (coord e₀.lambda i), ← hstill i] at hrow
  have hproblem₁ : e₁.problem = p := hrebased.problem_eq.trans (hsame.problem.trans hrests.problem)
  have hproblem : g.problem = p := (hruns.regular hr₁).2.1.trans hproblem₁
  have hp₁ : e₁.problem.Accepted := hproblem₁ ▸ hp
  have hb₁ := hrebased.balanced hr₀
  exact ⟨hproblem, hproblem ▸ hjob, (hruns.regular hr₁).1, hruns.dualFeasible hr₁ hf₁, hb₁.of_runs hp₁ hr₁ hf₁ hruns,
    (hruns.frozen hr₁).anchored hrebased.anchored,
    (hrebased.outside hr₀ hstill hsides₀).of_runs hp₁ hr₁ hf₁ hb₁ hruns⟩

/-- A search from `e` drops row `k` at a step at which its multiplier is zero. -/
def DropsAtZero (e : Engine K) (rows cols : IndexRange) (k : ℕ) : Prop :=
  ∃ s s' key, e.Passes rows cols s ∧ LineSearch.Event s s' (e.problem.ncols + k) key ∧
    (s.engine.set.rowAt k = .atLower ∨ s.engine.set.rowAt k = .atUpper) ∧
    coord s.engine.lambda k + coord s.engine.dlambda k + s'.step * coord s.engine.work.t k = 0

/-- A search from `e` frees column `j` at a step at which its value without bounds is the bound that it was held at. -/
def FreesOnBound (e : Engine K) (rows cols : IndexRange) (j : ℕ) : Prop :=
  ∃ s s' key, e.Passes rows cols s ∧ LineSearch.Event s s' j key ∧
    s.engine.columnBoundAt j = some (e.problem.columnValue j (s.engine.dualAfter rows s'.step))

theorem Passes.frozen (hs : e.Passes rows cols s) (hr : e.Regular) (hstop : rows.stop ≤ e.problem.nrows) :
    Frozen e s.engine := by
  obtain ⟨s₀, hstarts, hwalks⟩ := hs
  obtain ⟨e₁, e₂, hd, -, hc, rfl⟩ := hstarts.spec hr hstop
  have hr₂ := hc.regular (hd.regular hr)
  have hstart : Frozen e e₂ := by
    obtain ⟨pa, rfl, -⟩ := hd
    obtain ⟨heap, rfl, -⟩ := hc
    exact ⟨rfl, rfl, rfl, fun _ _ => ⟨rfl, rfl⟩, fun _ _ => rfl⟩
  exact hstart.trans (hwalks.frozen hr₂)

section Search

variable (hp : p.Accepted) (hg : Searchable p g job)

include hp hg

theorem Searchable.orderly (hs : g.Passes job.rows job.cols s) :
    ∃ e₁, g.HasDirections job.rows job.cols e₁ ∧ LineSearch.Orderly e₁ job.rows job.cols s :=
  hs.orderly (hg.problem ▸ hp) (hg.problem ▸ hg.covers) hg.regular hg.feasible hg.balanced hg.outside

theorem Searchable.frozen (hs : g.Passes job.rows job.cols s) : Frozen g s.engine :=
  hs.frozen hg.regular (by rw [hg.problem]; exact (hp.job_stop hg.covers).1)

/-- The event of a row comes where its multiplier is zero. -/
theorem Searchable.dropsAtZero {s' : LineSearch K} {key : K} (hs : g.Passes job.rows job.cols s)
    (he : LineSearch.Event s s' (g.problem.ncols + k) key) : g.DropsAtZero job.rows job.cols k := by
  obtain ⟨e₁, -, ho⟩ := hg.orderly hp hs
  have hproblem := (hg.frozen hp hs).problem
  have hkey := he.first.1
  rw [← hproblem, ho.searching.problem] at hkey
  refine ⟨s, s', key, hs, he, ?_, ?_⟩
  · exact LineSearch.inequality_of_movesToZero (ho.searching.row_key k key hkey).2.1
  · rw [he.step_eq]
    exact ho.searching.zero_at_drop hkey

/-- The event of a column comes where its value without bounds is its bound. -/
theorem Searchable.freesOnBound {s' : LineSearch K} {key : K} (hs : g.Passes job.rows job.cols s)
    (hj : j < g.problem.ncols) (he : LineSearch.Event s s' j key) : g.FreesOnBound job.rows job.cols j := by
  obtain ⟨e₁, -, ho⟩ := hg.orderly hp hs
  have hfrozen := hg.frozen hp hs
  rw [← hfrozen.problem] at hj
  obtain ⟨hin, hheld⟩ := ho.pursues.column_key j hj key he.first.1
  obtain ⟨b, hb, -⟩ := ho.searching.regular.exists_columnBoundAt hheld
  have hvalue : s.engine.problem.columnValue j (s.engine.dualAfter job.rows (max 0 key)) = b := by
    rw [ho.steady.balanced.columnValue_after ho.steady.aligned hj, columnDirectionAt, if_pos hin,
      ho.guarded.on_bound hj he.first.1, add_zero]
    exact hfrozen.anchored hg.anchored j hj b hb
  refine ⟨s, s', key, hs, he, ?_⟩
  rw [he.step_eq, ← hfrozen.problem, hvalue]
  exact hb

/-- Rows and columns change in a search by such events only. -/
theorem Searchable.changes (hok : g.lineSearch job.rows job.cols = .ok (out, e')) :
    (∀ k, (g.set.rowAt k).isActive = true → e'.set.rowAt k = .dropped → g.DropsAtZero job.rows job.cols k) ∧
      ∀ j, g.set.colAt j ≠ .free → e'.set.colAt j = .free → g.FreesOnBound job.rows job.cols j := by
  have hp' : g.problem.Accepted := hg.problem ▸ hp
  have hjob : job.Covers g.problem.tree := hg.problem ▸ hg.covers
  have hstop := (hp'.job_stop hjob).1
  rcases hg.regular.lineSearch_cases hstop hok with ⟨hd, -, -⟩ | ⟨s₀, s', flag, hstarts, hfinishes, hadvanced, -⟩
  · obtain ⟨pa, rfl, -⟩ := hd
    refine ⟨fun k hact hdropped => ?_, fun j hheld hfree => absurd hfree hheld⟩
    have hdropped : g.set.rowAt k = .dropped := hdropped
    rw [hdropped] at hact
    cases hact
  · have hstart : g.Passes job.rows job.cols s₀ := ⟨s₀, hstarts, .refl⟩
    obtain ⟨e₁, hd, ho⟩ := hg.orderly hp hstart
    have hproblem₁ : e₁.problem = g.problem := by
      obtain ⟨pa, rfl, -⟩ := hd
      rfl
    obtain ⟨s₁, hwalks, -, hengine, -⟩ := hfinishes.exists_last (hproblem₁ ▸ hp') (hproblem₁ ▸ hjob) ho
    have hset : e'.set = s₁.engine.set := by
      obtain ⟨dlambda, c, rfl, -⟩ := hadvanced
      rw [← hengine]
    have hset₀ : s₀.engine.set = g.set := by
      obtain ⟨e₂, e₃, hd, -, hc, rfl⟩ := hstarts.spec hg.regular hstop
      obtain ⟨pa, rfl, -⟩ := hd
      obtain ⟨heap, rfl, -⟩ := hc
      rfl
    have hproblem₀ := (hg.frozen hp hstart).problem
    rw [hset, ← hset₀]
    refine ⟨fun k hact hdropped => ?_, fun j hheld hfree => ?_⟩
    · obtain ⟨s₂, s₃, key, hwalks', he⟩ := hwalks.exists_drop ho.searching.regular hact hdropped
      exact hg.dropsAtZero hp ⟨s₀, hstarts, hwalks'⟩ (hproblem₀ ▸ he)
    · obtain ⟨s₂, s₃, key, hwalks', he, hj⟩ := hwalks.exists_release ho.searching.regular hheld hfree
      exact hg.freesOnBound hp ⟨s₀, hstarts, hwalks'⟩ (hproblem₀ ▸ hj) he

end Search

/-- The first search of a run on the half-line with a bound column. -/
def searchHalfLine : Checked (Problem ℚ × Engine ℚ × Job × Engine ℚ × LineOutcome ℚ × Engine ℚ) := do
  let p ← accepted Problem.boundedHalfLine
  let e ← accepted (create p plain)
  let added ← e.addRow 0 .lower
  let bound ← added.2.bindColumn 0 .lower
  let e₁ ← bound.2.rebase
  let committed ← e₁.commit false
  let schedule ← Schedule.seed committed.2.problem.tree committed.2.set.rows
  match schedule.jobs with
  | [] => .error .wrongState
  | job :: _ =>
    let g ← { committed.2 with schedule := schedule }.solveJob job
    let searched ← g.lineSearch job.rows job.cols
    if committed.2.set.activeCount ≠ 0 then return (p, bound.2, job, g, searched) else .error .wrongState

/-- All are on their sides before the search, which frees the column after a positive step. -/
theorem exists_searchHalfLine : ∃ (p : Problem ℚ) (e g : Engine ℚ) (job : Job) (out : LineOutcome ℚ) (g' : Engine ℚ),
    p.Accepted ∧ Reachable p plain e ∧ e.OnSides e.startDual ∧ e.Searches g job ∧
      g.lineSearch job.rows job.cols = .ok (out, g') ∧ g.set.colAt 0 = .atLower ∧ g'.set.colAt 0 = .free ∧
      0 < out.step := by
  obtain ⟨⟨p, e, job, g, out, g'⟩, hrun, hcheck⟩ := exists_of_passes (x := searchHalfLine)
    (f := fun r => r.2.1.lambda == #[0] && decide (r.1.ncols = 1) && decide (r.1.loAt 0 = .finite 0) &&
      decide (coord r.1.y 0 ≤ 0) && decide (r.2.1.set.colAt 0 = .atLower) && decide (r.2.2.2.1.set.colAt 0 = .atLower) &&
      decide (r.2.2.2.2.2.set.colAt 0 = .free) && decide (0 < r.2.2.2.2.1.step))
    (by decide +kernel)
  unfold searchHalfLine at hrun
  simp only [bind_eq_ok_iff, accepted_eq_ok_iff] at hrun
  obtain ⟨p, hp, _, hcreate, ⟨b, e₁⟩, hadd, ⟨b', e⟩, hbind, e₂, hrebase, ⟨refactored, e₃⟩, hcommit, schedule, hseed,
    hrun⟩ := hrun
  cases hjobs : schedule.jobs with
  | nil =>
      rw [hjobs] at hrun
      cases hrun
  | cons first later =>
      simp only [hjobs, bind_eq_ok_iff] at hrun
      obtain ⟨g, hsolve, ⟨out, g'⟩, hsearch, hrun⟩ := hrun
      split_ifs at hrun with hactive
      simp only [pure_eq_ok_iff, Prod.mk.injEq] at hrun
      obtain ⟨rfl, rfl, rfl, rfl, rfl, rfl⟩ := hrun
      simp only [Bool.and_eq_true, beq_iff_eq, decide_eq_true_eq] at hcheck
      obtain ⟨⟨⟨⟨⟨⟨⟨hlambda, hncols⟩, hlo⟩, hy⟩, hcol⟩, hheld⟩, hfree⟩, hpos⟩ := hcheck
      have hreachable : Reachable p plain e := .bindColumn (.addRow (.create hcreate) hadd) hbind
      have hzero : ∀ i, e.startDual i = 0 := by
        intro i
        rw [startDual, hlambda]
        split_ifs
        · exact coord_replicate 1 i
        · rfl
      have hproblem := (hreachable.rests (.create hp)).problem
      have hsides : e.OnSides e.startDual := by
        refine ⟨fun i _ => ?_, fun j hj => ?_⟩
        · rw [hzero]
          exact RowStatus.admits_zero _
        · rw [hproblem, hncols, Nat.lt_one_iff] at hj
          rw [hj, hcol, hproblem, hlo, Problem.columnValue]
          simp only [hzero, mul_zero, Finset.sum_const_zero, add_zero]
          exact hy
      have hfirst : ({ e₃ with schedule := schedule } : Engine ℚ).schedule.jobs = [] ++ first :: later := hjobs
      have hsearches : e.Searches g first := .intro (Quiet.refl e) (.first hrebase hcommit hactive hseed)
        (Quiet.refl _) hfirst rfl (Quiet.refl _) hsolve (Quiet.refl g)
      exact ⟨p, e, g, first, out, g', .create hp, hreachable, hsides, hsearches, hsearch, hheld, hfree, hpos⟩

/-- If the multipliers and the bound columns are on their sides at the start of a run, they are so after each search. A
row is dropped where its multiplier is zero, and never if it is an equality; a column is freed on its bound. -/
theorem search_keeps_sides (hp : p.Accepted) (he : Reachable p settings e) (hsides : e.OnSides e.startDual)
    (hsearch : e.Searches g job) : ∃ out g', g.lineSearch job.rows job.cols = .ok (out, g') ∧ g'.OnSides g'.dual ∧
      0 ≤ out.step ∧ out.step ≤ 1 ∧
      (∀ k, (g.set.rowAt k).isActive = true → g'.set.rowAt k = .dropped → g.DropsAtZero job.rows job.cols k) ∧
      (∀ j, g.set.colAt j ≠ .free → g'.set.colAt j = .free → g.FreesOnBound job.rows job.cols j) ∧
      ∀ i, g.set.rowAt i = .equality → g'.set.rowAt i = .equality := by
  have hrests := he.rests hp
  obtain ⟨out, g', hok, -⟩ := hsearch.lineSearch_ok (hrests.problem ▸ hp) (he.sound hp) (he.tracked hp)
  have hg := hsearch.searchable hp he hsides
  have hp' : g.problem.Accepted := hg.problem ▸ hp
  have hjob : job.Covers g.problem.tree := hg.problem ▸ hg.covers
  have hsearched := hg.regular.of_lineSearch (hp'.job_stop hjob).1 hok
  obtain ⟨hr', hf', -, hstatus⟩ := hsearched.feasible hg.regular hg.feasible
  have hb' := hg.balanced.of_searched hp' hjob hg.regular hg.feasible hsearched
  have ha' := (hsearched.frozen hg.regular).anchored hg.anchored
  obtain ⟨ho', hnonneg, hle⟩ := Outside.of_searched hp' hg.regular hg.feasible hg.balanced hg.outside hjob hsearched
  obtain ⟨hdrops, hfrees⟩ := hg.changes hp hok
  refine ⟨out, g', hok, ⟨fun i _ => hf'.on_side i, (hb'.outside_iff hr' ha').1 ho'⟩, hnonneg, hle, hdrops, hfrees, ?_⟩
  intro i hi
  rcases hstatus i with heq | ⟨-, hside⟩
  · rw [heq, hi]
  · rw [hi] at hside
    rcases hside with hside | hside <;> cases hside

theorem search_keeps_sides_halfLine : ∃ (p : Problem ℚ) (e g : Engine ℚ) (job : Job), p.Accepted ∧
    Reachable p plain e ∧ e.OnSides e.startDual ∧ e.Searches g job ∧ g.set.colAt 0 = .atLower ∧
    g.FreesOnBound job.rows job.cols 0 := by
  obtain ⟨p, e, g, job, out, g', hp, he, hsides, hsearches, hsearch, hheld, hfree, -⟩ := exists_searchHalfLine
  obtain ⟨_, _, hok, -, -, -, -, hfrees, -⟩ := search_keeps_sides hp he hsides hsearches
  obtain ⟨-, rfl⟩ := Prod.mk.inj (Except.ok.inj (hok.symm.trans hsearch))
  refine ⟨p, e, g, job, hp, he, hsides, hsearches, hheld, hfrees 0 ?_ hfree⟩
  rw [hheld]
  decide

end Engine

end PolyProjection
