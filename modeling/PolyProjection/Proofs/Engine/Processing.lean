import Mathlib
import PolyProjection.Proofs.Engine.Newton
import PolyProjection.Proofs.Engine.Shedding
import PolyProjection.Proofs.Rollup
import PolyProjection.Proofs.Timers

/-! The work on one job is carried out whatever the multipliers are. The factor of a run has positive pivots in all of
its columns, so the triangular solves do not divide by zero; the rows that are linked during a sweep are among those of
the factor. -/

namespace PolyProjection

set_option linter.unusedSectionVars false

variable {K : Type} [Field K] [LinearOrder K] [IsStrictOrderedRing K]

namespace Fill

variable {s : Fill} {a : SparseMatrix K} {free act : ℕ → Bool} {sigma : K}

theorem hasColumns_canonical (hsigma : 0 < sigma) : (s.canonical a free act sigma).HasColumns s.size
    (fun j => (s.column j).filter act) (lower (normal a free act sigma)) (pivot (normal a free act sigma)) where
  live j hj := by
    rw [LdlFactor.live, canonical, factor]
    dsimp only
    rw [fetch_table hj]
    rfl
  diag j hj := fetch_table hj
  pivot j _ := (pivot_normal_pos hsigma j).ne'
  ascending j := (column_ascending s j).filter _
  lt j i hi := column_lt i (List.mem_of_mem_filter hi)

/-- No pivot of an active row is below the regularization. -/
theorem le_minActiveDiagonal (hsigma : 0 < sigma) {v : K}
    (h : (s.canonical a free act sigma).minActiveDiagonal = some v) : sigma ≤ v := by
  have hentry : ∀ x ∈ ((s.canonical a free act sigma).diag.zip (s.canonical a free act sigma).active).toList,
      x.2 = true → sigma ≤ x.1 := by
    intro x hx hact
    rw [Array.toList_zip, canonical, diag_factor, active_factor, table, table, Array.toList_map, Array.toList_map,
      Array.toList_range, List.zip_map', List.mem_map] at hx
    obtain ⟨i, -, rfl⟩ := hx
    have hle : (if act i then sigma else 1) ≤ pivot (normal a free act sigma) i := le_pivot_normal hsigma
    rwa [if_pos hact] at hle
  rw [LdlFactor.minActiveDiagonal, ← Array.foldl_toList] at h
  refine List.foldlRecOn (motive := fun least => ∀ w, least = some w → sigma ≤ w) _ _ (by simp)
    (fun least hleast x hx w hw => ?_) v h
  split_ifs at hw with hact
  · cases least with
    | none => exact Option.some.inj hw ▸ hentry x hx hact
    | some u =>
        rw [← Option.some.inj hw]
        dsimp only
        rw [Scalar.min_exact]
        exact le_min (hleast u rfl) (hentry x hx hact)
  · exact hleast w hw

end Fill

namespace Engine

variable {e e' e'' g : Engine K} {rows cols : IndexRange} {job job' : Job}

/-- The factor has a column with a pivot for each row. -/
def Solves (e : Engine K) : Prop :=
  ∃ column l d, e.factor.HasColumns e.problem.nrows column l d

theorem Matches.solves {s : Fill} (h : Matches s e) (hs : s.Covers e.problem.a) (hsigma : 0 < e.sigma) : e.Solves := by
  have hcolumns : e.factor.HasColumns s.size _ _ _ := h.factor ▸ Fill.hasColumns_canonical hsigma
  rw [show s.size = e.problem.nrows from hs.size_eq] at hcolumns
  exact ⟨_, _, _, hcolumns⟩

theorem Sound.meets_ok (hs : e.Sound) {range : IndexRange} (hle : range.stop ≤ e.problem.nrows) :
    Schedule.meets e.set.rows range = .ok (e.set.activeBetween range.start range.stop).head?.isSome := by
  rw [Schedule.meets, (hs.window range.start hle).seek_eq]
  rfl

/-- What the work on jobs within the given rows and columns leaves behind, with at most `n` levels of timers. -/
structure Processed (n : ℕ) (rows cols : IndexRange) (e e' : Engine K) : Prop extends Sheds rows cols e e' where
  sound : e'.Sound
  factor : e'.factor = e.factor
  schedule : e'.schedule = e.schedule
  timers : Timers.Nests n e.timers e'.timers

variable {n : ℕ}

theorem Processed.refl (hs : e.Sound) : Processed n rows cols e e :=
  ⟨Sheds.refl e, hs, rfl, rfl, Timers.nests_of_eq rfl⟩

theorem Processed.trans (h : Processed n rows cols e e') (h' : Processed n rows cols e' e'') :
    Processed n rows cols e e'' :=
  ⟨h.toSheds.trans h'.toSheds, h'.sound, h'.factor.trans h.factor, h'.schedule.trans h.schedule,
    h.timers.trans h'.timers⟩

theorem Processed.solves (h : Processed n rows cols e e') (hsolves : e.Solves) : e'.Solves := by
  rw [Solves, h.factor, h.problem]
  exact hsolves

/-- What is done under a timer adds one level. -/
theorem Processed.timed {key : String} (h : Processed n rows cols { e with timers := e.timers.start key } e') :
    Processed (n + 1) rows cols e { e' with timers := e'.timers.stop } where
  toSheds := { h.toSheds with }
  sound := ⟨{ h.sound.regular with }, h.sound.work, h.sound.columns⟩
  factor := h.factor
  schedule := h.schedule
  timers := h.timers.timed

theorem Processed.of_events (h : Processed n rows cols e e') (events : Array (Event K)) :
    Processed n rows cols e { e' with events := events } where
  toSheds := { h.toSheds with }
  sound := ⟨{ h.sound.regular with }, h.sound.work, h.sound.columns⟩
  factor := h.factor
  schedule := h.schedule
  timers := h.timers

theorem timed_eq_ok {β : Type} {key : String} {act : Engine K → Checked (β × Engine K)} {b : β}
    (h : act { e with timers := e.timers.start key } = .ok (b, g)) :
    e.timed key act = .ok (b, { g with timers := g.timers.stop }) :=
  bind_eq_ok_iff.2 ⟨(b, g), h, rfl⟩

/-- Counts and timers do not matter. -/
theorem Sound.of_stats (hs : e.Sound) (stats : Statistics) (timers : Timers) :
    Sound { e with stats := stats, timers := timers } :=
  ⟨{ hs.regular with }, hs.work, hs.columns⟩

theorem Sound.of_solved (hs : e.Sound) (job : Job) (column : ℕ → List ℕ) (l : ℕ → ℕ → K) (d : ℕ → K) :
    (e.solved job column l d).Sound :=
  ⟨{ hs.regular with }, { hs.work with fwd := size_table _ _, u := size_table _ _, t := size_table _ _ }, hs.columns⟩

/-- The Newton system of a job is solved. -/
theorem Sound.solveJob_ok (rows cols : IndexRange) (hs : e.Sound) (hsolves : e.Solves)
    (hstop : job.rows.stop ≤ e.problem.nrows) :
    ∃ e', e.solveJob job = .ok e' ∧ Processed 0 rows cols e e' ∧ e'.shed = e.shed := by
  obtain ⟨column, l, d, hcolumns⟩ := hsolves
  exact ⟨_, hs.solveJob_eq hcolumns hstop, ⟨sheds_of_same rfl (fun _ => rfl) (fun _ => rfl) ⟨rfl, rfl, rfl, rfl⟩,
    hs.of_solved job column l d, rfl, rfl, Timers.nests_of_eq rfl⟩, rfl⟩

/-- A job is worked on; it is told as changed just if an event happened. -/
theorem Sound.processJob_ok (hp : e.problem.Accepted) (hs : e.Sound) (hsolves : e.Solves)
    (hjob : job.Covers e.problem.tree) : ∃ job' e', e.processJob job = .ok (job', e') ∧
      Schedule.Reflagged job job' ∧ Processed 1 job.rows job.cols e e' ∧ (job'.changed = true ↔ e.shed < e'.shed) := by
  have hstop : job.rows.stop ≤ e.problem.nrows := by
    rw [← hp.tree.2.1]
    exact hp.tree.1.tested.subtreeRows_stop hjob.1
  unfold processJob
  rw [hs.meets_ok hstop, ok_bind]
  cases (e.set.activeBetween job.rows.start job.rows.stop).head?.isSome with
  | false => exact ⟨_, e, rfl, ⟨rfl, rfl, rfl⟩, Processed.refl hs, by simp⟩
  | true =>
      have hcounted : Processed 1 job.rows job.cols e { e with stats := { e.stats with jobs := e.stats.jobs + 1 } } :=
        ⟨sheds_of_same rfl (fun _ => rfl) (fun _ => rfl) ⟨rfl, rfl, rfl, rfl⟩, hs.of_stats _ e.timers, rfl, rfl,
          Timers.nests_of_eq rfl⟩
      obtain ⟨e₁, hsolve, hsolved, hshed⟩ := (hs.of_stats { e.stats with jobs := e.stats.jobs + 1 }
        (e.timers.start "solve")).solveJob_ok job.rows job.cols hsolves hstop
      have h₁ := hcounted.trans hsolved.timed
      have hjob₁ : job.Covers e₁.problem.tree := h₁.problem ▸ hjob
      obtain ⟨out, e₂, hsearch, hs₂, hsheds, hchanged⟩ := (hsolved.sound.of_stats e₁.stats
        (e₁.timers.stop.start "linesearch")).lineSearch_ok (h₁.problem ▸ hp) hjob₁
      have hframe := ((hsolved.sound.of_stats e₁.stats (e₁.timers.stop.start "linesearch")).regular.of_lineSearch
        (h₁.problem ▸ hstop) hsearch).frame
      have hsearched : Processed 0 job.rows job.cols
          { e₁ with timers := e₁.timers.stop.start "linesearch" } e₂ := by
        refine ⟨hsheds, hs₂, ?_, ?_, Timers.nests_of_eq ?_⟩ <;>
          obtain ⟨_, _, _, _, _, _, _, _, rfl⟩ := hframe <;> rfl
      have h₂ := h₁.trans (hsearched.timed (e := { e₁ with timers := e₁.timers.stop }))
      have hshed₂ : out.changed = true ↔ e.shed < e₂.shed := by
        rw [hchanged, show e.shed = e₁.shed from hshed.symm]
        rfl
      let done := tell { e₂ with timers := e₂.timers.stop } (.jobDone job.block out.step out.flag out.changed)
      refine ⟨{ job with changed := out.changed, mark := out.mark },
        if out.flag = .degenerate then done.tell (.degenerateDirection job.block) else done, ?_, ⟨rfl, rfl, rfl⟩, ?_, ?_⟩
      · simp only [Bool.not_true, Bool.false_eq_true, if_false, bind_eq_ok_iff]
        exact ⟨_, timed_ok hsolve, _, timed_eq_ok (e := { e₁ with timers := e₁.timers.stop }) hsearch, rfl⟩
      · split_ifs
        · exact (h₂.of_events _).of_events _
        · exact h₂.of_events _
      · split_ifs <;> exact hshed₂

/-- The jobs of a sweep are worked on one after the other, each within its own rows and columns. -/
theorem Sound.processJobs_ok (hp : e.problem.Accepted) (hs : e.Sound) (hsolves : e.Solves) (jobs : List Job)
    (hjobs : ∀ job ∈ jobs, job.Covers e.problem.tree) : ∃ jobs' e', e.processJobs jobs = .ok (jobs', e') ∧
      List.Forall₂ Schedule.Reflagged jobs jobs' ∧
      Processed 1 ⟨0, e.problem.nrows⟩ ⟨0, e.problem.ncols⟩ e e' ∧
      ((∃ job ∈ jobs', job.changed = true) ↔ e.shed < e'.shed) := by
  induction jobs generalizing e with
  | nil => exact ⟨[], e, rfl, .nil, Processed.refl hs, by simp⟩
  | cons job rest ih =>
      obtain ⟨ht, hnrows, hncols⟩ := hp.tree
      have hcovers := hjobs job List.mem_cons_self
      obtain ⟨job₁, e₁, hjob, hflags, hprocessed, hchanged⟩ := hs.processJob_ok hp hsolves hcovers
      have hproblem := hprocessed.problem
      obtain ⟨rest₁, e₂, hrest, hflags', hprocessed', hchanged'⟩ := ih (hproblem ▸ hp) hprocessed.sound
        (hprocessed.solves hsolves) fun g hg => hproblem ▸ hjobs g (List.mem_cons_of_mem job hg)
      have hwhole : Processed 1 ⟨0, e.problem.nrows⟩ ⟨0, e.problem.ncols⟩ e e₁ :=
        ⟨hprocessed.toSheds.mono ⟨Nat.zero_le _, hnrows ▸ ht.tested.subtreeRows_stop hcovers.1⟩
          ⟨Nat.zero_le _, hncols ▸ ht.tested.subtreeCols_stop hcovers.2⟩, hprocessed.sound, hprocessed.factor,
          hprocessed.schedule, hprocessed.timers⟩
      rw [hproblem] at hprocessed'
      refine ⟨job₁ :: rest₁, e₂, ?_, .cons hflags hflags', hwhole.trans hprocessed', ?_⟩
      · simp only [processJobs, hjob, ok_bind, hrest]
        rfl
      · have hcount := hprocessed.counted
        have hcount' := hprocessed'.counted
        have hshed : e.shed ≤ e₁.shed ∧ e₁.shed ≤ e₂.shed := by
          simp only [shed]
          omega
        simp only [List.mem_cons, exists_eq_or_imp, hchanged, hchanged']
        omega

end Engine

end PolyProjection
