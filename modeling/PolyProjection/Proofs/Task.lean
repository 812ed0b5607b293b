import PolyProjection.Projection.Solve
import PolyProjection.Proofs.Checked

/-! The task of an engine, over any scalars: the problem and the settings that it was set up with. Nothing that is
done with an engine or a projection changes them. -/

namespace PolyProjection

set_option linter.unusedSectionVars false

variable {α σ : Type} [Scalar α] {e e' : Engine α} {status : Status} {rows cols : IndexRange}

namespace Engine

/-- The problem and the settings of an engine. -/
def task (e : Engine α) : Problem α × Settings α :=
  (e.problem, e.settings)

@[simp] theorem task_tell (e : Engine α) (event : Event α) : (e.tell event).task = e.task :=
  rfl

@[simp] theorem task_print (e : Engine α) (detail : Nat) (r : Report α) : (e.print detail r).task = e.task := by
  unfold print
  split
  all_goals rfl

/-- What keeps the task keeps it under a timer. -/
theorem task_timed {β : Type} {key : String} {act : Engine α → Checked (β × Engine α)} {b : β}
    (h : e.timed key act = .ok (b, e')) (hact : ∀ g b g', act g = .ok (b, g') → g'.task = g.task) :
    e'.task = e.task := by
  simp only [timed, bind_eq_ok_iff, pure_eq_ok_iff, Prod.mk.injEq] at h
  obtain ⟨⟨_, g⟩, hg, rfl, rfl⟩ := h
  have hkept := hact _ _ _ hg
  exact hkept

theorem task_timed_engine {key : String} {act : Engine α → Checked (Engine α)} {b : Unit}
    (h : e.timed key (fun g => return ((), ← act g)) = .ok (b, e'))
    (hact : ∀ g g', act g = .ok g' → g'.task = g.task) : e'.task = e.task := by
  apply task_timed h
  intro g b g' hg
  simp only [bind_eq_ok_iff, pure_eq_ok_iff, Prod.mk.injEq] at hg
  obtain ⟨_, hstep, -, rfl⟩ := hg
  exact hact _ _ hstep

/-! ### Requests -/

theorem task_addRow {i : Nat} {side : Side} {b : Bool} (h : e.addRow i side = .ok (b, e')) : e'.task = e.task := by
  obtain ⟨_, -, h⟩ := bind_eq_ok_iff.1 h
  split at h
  · obtain ⟨-, rfl⟩ := Prod.mk.inj (pure_eq_ok_iff.1 h)
    rfl
  · obtain ⟨_, -, h⟩ := bind_eq_ok_iff.1 h
    split at h
    · obtain ⟨-, rfl⟩ := Prod.mk.inj (pure_eq_ok_iff.1 h)
      rfl
    · simp only [bind_eq_ok_iff, pure_eq_ok_iff, Prod.mk.injEq] at h
      obtain ⟨_, -, _, -, _, -, -, rfl⟩ := h
      rfl

theorem task_bindColumn {j : Nat} {side : Side} {b : Bool} (h : e.bindColumn j side = .ok (b, e')) :
    e'.task = e.task := by
  unfold bindColumn at h
  cases side
  all_goals
    obtain ⟨_, -, h⟩ := bind_eq_ok_iff.1 h
    dsimp only at h
    split at h
    · obtain ⟨-, rfl⟩ := Prod.mk.inj (pure_eq_ok_iff.1 h)
      rfl
    · simp only [bind_eq_ok_iff, pure_eq_ok_iff, Prod.mk.injEq] at h
      obtain ⟨_, -, _, -, -, rfl⟩ := h
      split
      all_goals rfl

theorem task_releaseColumn {j : Nat} (h : e.releaseColumn j = .ok e') : e'.task = e.task := by
  obtain ⟨_, -, h⟩ := bind_eq_ok_iff.1 h
  rw [← pure_eq_ok_iff.1 h]
  rfl

theorem task_freeColumn {j : Nat} {b : Bool} (h : e.freeColumn j = .ok (b, e')) : e'.task = e.task := by
  obtain ⟨_, -, h⟩ := bind_eq_ok_iff.1 h
  split at h
  · obtain ⟨-, rfl⟩ := Prod.mk.inj (pure_eq_ok_iff.1 h)
    rfl
  · obtain ⟨_, hreleased, h⟩ := bind_eq_ok_iff.1 h
    obtain ⟨-, rfl⟩ := Prod.mk.inj (pure_eq_ok_iff.1 h)
    rw [task_tell, task_releaseColumn hreleased]

theorem task_setDual {entries : List (Nat × α)} (h : e.setDual entries = .ok e') : e'.task = e.task := by
  obtain ⟨_, -, h⟩ := bind_eq_ok_iff.1 h
  rw [← pure_eq_ok_iff.1 h]
  rfl

/-! ### Changes of the factor -/

theorem task_refactor (h : e.refactor = .ok e') : e'.task = e.task := by
  simp only [refactor, bind_eq_ok_iff, pure_eq_ok_iff] at h
  obtain ⟨_, -, _, -, _, -, rfl⟩ := h
  rfl

section Replay

variable {r r' : Replay α} {k : Nat}

/-- What is replayed changes the factor and the marks of its columns at most. -/
theorem Replay.task_bindColumn (h : r.bindColumn k = .ok r') : r'.engine.task = r.engine.task := by
  simp only [bindColumn, bind_eq_ok_iff] at h
  obtain ⟨_, -, _, -, h⟩ := h
  split at h
  · simp only [bind_eq_ok_iff, pure_eq_ok_iff] at h
    obtain ⟨_, -, _, -, rfl⟩ := h
    rfl
  · rw [← pure_eq_ok_iff.1 h]

theorem Replay.task_deleteRow (h : r.deleteRow k = .ok r') : r'.engine.task = r.engine.task := by
  simp only [deleteRow, bind_eq_ok_iff] at h
  obtain ⟨_, -, _, -, h⟩ := h
  split at h
  · simp only [bind_eq_ok_iff, pure_eq_ok_iff] at h
    obtain ⟨_, -, rfl⟩ := h
    rfl
  · rw [← pure_eq_ok_iff.1 h]

theorem Replay.task_addRow (h : r.addRow k = .ok r') : r'.engine.task = r.engine.task := by
  simp only [addRow, bind_eq_ok_iff] at h
  obtain ⟨_, -, _, -, h⟩ := h
  split at h
  · simp only [bind_eq_ok_iff, pure_eq_ok_iff] at h
    obtain ⟨_, -, rfl⟩ := h
    rfl
  · rw [← pure_eq_ok_iff.1 h]

theorem Replay.task_freeColumn (h : r.freeColumn k = .ok r') : r'.engine.task = r.engine.task := by
  simp only [freeColumn, bind_eq_ok_iff] at h
  obtain ⟨_, -, _, -, h⟩ := h
  split at h
  · simp only [bind_eq_ok_iff, pure_eq_ok_iff] at h
    obtain ⟨_, -, _, -, rfl⟩ := h
    rfl
  · rw [← pure_eq_ok_iff.1 h]

/-- A loop of changes keeps the task if each change does. -/
theorem Replay.task_foldlM {f : Replay α → Nat → Checked (Replay α)} {ks : Array Nat} (h : ks.foldlM f r = .ok r')
    (hf : ∀ r k r', f r k = .ok r' → r'.engine.task = r.engine.task) : r'.engine.task = r.engine.task := by
  rw [← Array.foldlM_toList] at h
  exact foldlM_keeps (fun c => c.engine.task = r.engine.task) h rfl fun k _ c c' hc hstep => (hf c k c' hstep).trans hc

end Replay

theorem task_applyUpdates {isPartial : Bool} (h : e.applyUpdates isPartial = .ok e') : e'.task = e.task := by
  simp only [applyUpdates, bind_eq_ok_iff, pure_eq_ok_iff] at h
  obtain ⟨r₁, h₁, r₂, h₂, r₃, h₃, r₄, h₄, rfl⟩ := h
  have hbound := Replay.task_foldlM h₁ fun _ _ _ => Replay.task_bindColumn
  have hdeleted := Replay.task_foldlM h₂ fun _ _ _ => Replay.task_deleteRow
  have hadded := Replay.task_foldlM h₃ fun _ _ _ => Replay.task_addRow
  have hfreed := Replay.task_foldlM h₄ fun _ _ _ => Replay.task_freeColumn
  exact hfreed.trans (hadded.trans (hdeleted.trans hbound))

theorem task_commit {isPartial refactored : Bool} (h : e.commit isPartial = .ok (refactored, e')) :
    e'.task = e.task := by
  unfold commit at h
  dsimp only at h
  split at h
  · obtain ⟨-, rfl⟩ := Prod.mk.inj (pure_eq_ok_iff.1 h)
    rfl
  · split at h
    · obtain ⟨⟨_, g⟩, hg, h⟩ := bind_eq_ok_iff.1 h
      obtain ⟨-, rfl⟩ := Prod.mk.inj (pure_eq_ok_iff.1 h)
      have hkept := task_timed_engine hg fun _ _ => task_refactor
      exact hkept
    · obtain ⟨⟨_, g⟩, hg, h⟩ := bind_eq_ok_iff.1 h
      obtain ⟨-, rfl⟩ := Prod.mk.inj (pure_eq_ok_iff.1 h)
      have hkept := task_timed_engine hg fun _ _ => task_applyUpdates
      exact hkept

/-! ### Line searches -/

theorem task_setDirections (h : e.setDirections rows cols = .ok e') : e'.task = e.task := by
  obtain ⟨_, -, h⟩ := bind_eq_ok_iff.1 h
  rw [← pure_eq_ok_iff.1 h]
  rfl

theorem task_setCandidates (h : e.setCandidates rows cols = .ok e') : e'.task = e.task := by
  simp only [setCandidates, bind_eq_ok_iff, pure_eq_ok_iff] at h
  obtain ⟨_, -, _, -, _, -, _, -, rfl⟩ := h
  rfl

theorem task_shiftRhs {j : Nat} {v : α → α} {mark mark' : Option Nat} (h : e.shiftRhs j v mark = .ok (mark', e')) :
    e'.task = e.task := by
  simp only [shiftRhs, bind_eq_ok_iff, pure_eq_ok_iff, Prod.mk.injEq] at h
  obtain ⟨_, -, _, -, -, rfl⟩ := h
  rfl

theorem task_rekeyColumn {j : Nat} {step p value : α} {held : ColumnStatus}
    (h : e.rekeyColumn j step p value held = .ok e') : e'.task = e.task := by
  simp only [rekeyColumn, placeColumn, pure_bind_ok] at h
  grind [task, bind_eq_ok_iff, pure_eq_ok_iff]

theorem task_advanceBy {step : α} (h : e.advanceBy rows cols step = .ok e') : e'.task = e.task := by
  simp only [advanceBy, bind_eq_ok_iff, pure_eq_ok_iff] at h
  obtain ⟨_, -, _, -, rfl⟩ := h
  rfl

end Engine

namespace LineSearch

open Engine

variable {s s' : LineSearch α} {j k id : Nat}

theorem task_freeColumn (h : s.freeColumn j = .ok s') : s'.engine.task = s.engine.task := by
  simp only [freeColumn, bind_eq_ok_iff, pure_eq_ok_iff] at h
  obtain ⟨_, -, _, -, ⟨_, g⟩, hshift, e, hrelease, rfl⟩ := h
  calc (e.tell (.columnFreedInSearch j)).task = e.task := task_tell _ _
    _ = g.task := task_releaseColumn hrelease
    _ = s.engine.task := task_shiftRhs hshift

theorem task_loseRow {t delta : α} {entry : Nat × α} (h : loseRow t delta s entry = .ok s') :
    s'.engine.task = s.engine.task := by
  obtain ⟨j, a⟩ := entry
  simp only [loseRow, bind_eq_ok_iff] at h
  obtain ⟨_, -, _, -, _, -, _, -, _, -, st, -, h⟩ := h
  split at h
  · simp only [bind_eq_ok_iff, pure_eq_ok_iff] at h
    obtain ⟨⟨_, g⟩, hshift, rfl⟩ := h
    have hkept := task_shiftRhs hshift
    exact hkept
  · simp only [bind_eq_ok_iff, pure_eq_ok_iff] at h
    obtain ⟨g, hrekey, rfl⟩ := h
    have hkept := task_rekeyColumn hrekey
    exact hkept

theorem task_dropRow (h : s.dropRow k = .ok s') : s'.engine.task = s.engine.task := by
  simp only [dropRow, bind_eq_ok_iff, pure_eq_ok_iff] at h
  obtain ⟨_, -, _, -, _, -, _, -, _, -, _, -, _, -, _, -, entries, -, s₁, hloop, rfl⟩ := h
  rw [← Array.foldlM_toList] at hloop
  have hkept := foldlM_keeps (fun c => c.engine.task = s.engine.task) hloop rfl
    fun _ _ _ _ hc hstep => (task_loseRow hstep).trans hc
  exact hkept

theorem task_commitCandidate (h : s.commitCandidate id = .ok s') : s'.engine.task = s.engine.task := by
  unfold commitCandidate at h
  dsimp only at h
  split at h
  · obtain ⟨s₁, hevent, h⟩ := bind_eq_ok_iff.1 h
    rw [← task_freeColumn hevent, ← pure_eq_ok_iff.1 h]
  · obtain ⟨s₁, hevent, h⟩ := bind_eq_ok_iff.1 h
    rw [← task_dropRow hevent, ← pure_eq_ok_iff.1 h]

theorem task_walk {events : Nat} {flag : LineFlag} (h : walk events s = .ok (flag, s')) :
    s'.engine.task = s.engine.task := by
  induction events generalizing s with
  | zero => simp [walk] at h
  | succ events ih =>
      rw [walk] at h
      split at h
      · obtain ⟨-, rfl⟩ := Prod.mk.inj (pure_eq_ok_iff.1 h)
        rfl
      obtain ⟨first, -, h⟩ := bind_eq_ok_iff.1 h
      split at h
      · simp only [bind_eq_ok_iff, pure_eq_ok_iff, Prod.mk.injEq] at h
        obtain ⟨_, -, -, rfl⟩ := h
        rfl
      dsimp only at h
      split at h
      · obtain ⟨_, -, h⟩ := bind_eq_ok_iff.1 h
        split at h
        all_goals
          obtain ⟨-, rfl⟩ := Prod.mk.inj (pure_eq_ok_iff.1 h)
          rfl
      split at h
      · simp only [bind_eq_ok_iff, pure_eq_ok_iff, Prod.mk.injEq] at h
        obtain ⟨_, -, -, rfl⟩ := h
        rfl
      simp only [bind_eq_ok_iff] at h
      obtain ⟨⟨_, heap⟩, -, s₁, hcommit, h⟩ := h
      have hkept : s₁.engine.task = s.engine.task := (task_commitCandidate hcommit).trans rfl
      split at h
      · obtain ⟨-, rfl⟩ := Prod.mk.inj (pure_eq_ok_iff.1 h)
        exact hkept
      · exact (ih h).trans hkept

end LineSearch

namespace Engine

theorem task_lineSearch {out : LineOutcome α} (h : e.lineSearch rows cols = .ok (out, e')) : e'.task = e.task := by
  simp only [lineSearch, bind_eq_ok_iff] at h
  obtain ⟨e₁, hdirections, slope, -, h⟩ := h
  have h₁ := task_setDirections hdirections
  split at h
  · obtain ⟨-, rfl⟩ := Prod.mk.inj (pure_eq_ok_iff.1 h)
    exact h₁
  · obtain ⟨e₂, hcandidates, h⟩ := bind_eq_ok_iff.1 h
    have h₂ := (task_setCandidates hcandidates).trans h₁
    split at h
    · simp only [pure_bind_ok, bind_eq_ok_iff, pure_eq_ok_iff, Prod.mk.injEq] at h
      obtain ⟨e₃, hadvance, -, rfl⟩ := h
      exact (task_advanceBy hadvance).trans h₂
    · simp only [bind_eq_ok_iff, pure_eq_ok_iff, Prod.mk.injEq] at h
      obtain ⟨⟨flag, s⟩, hwalk, e₃, hadvance, -, rfl⟩ := h
      exact (task_advanceBy hadvance).trans ((LineSearch.task_walk hwalk).trans h₂)

/-! ### Runs -/

theorem task_rebase (h : e.rebase = .ok e') : e'.task = e.task := by
  simp only [rebase, foldIncrements, bind_eq_ok_iff, pure_eq_ok_iff] at h
  obtain ⟨_, ⟨_, -, rfl⟩, _, -, _, -, _, -, rfl⟩ := h
  rfl

theorem task_solveJob {job : Job} (h : e.solveJob job = .ok e') : e'.task = e.task := by
  simp only [solveJob, bind_eq_ok_iff, pure_eq_ok_iff] at h
  obtain ⟨_, -, _, -, _, -, _, -, rfl⟩ := h
  rfl

theorem task_processJob {job job' : Job} (h : e.processJob job = .ok (job', e')) : e'.task = e.task := by
  obtain ⟨_, -, h⟩ := bind_eq_ok_iff.1 h
  split at h
  · obtain ⟨-, rfl⟩ := Prod.mk.inj (pure_eq_ok_iff.1 h)
    rfl
  · simp only [bind_eq_ok_iff] at h
    obtain ⟨⟨_, e₁⟩, hsolve, ⟨out, e₂⟩, hsearch, h⟩ := h
    obtain ⟨-, rfl⟩ := Prod.mk.inj (pure_eq_ok_iff.1 h)
    have h₁ := task_timed_engine hsolve fun _ _ => task_solveJob
    have h₂ := task_timed hsearch fun _ _ _ => task_lineSearch
    split
    all_goals exact h₂.trans h₁

theorem task_processJobs {jobs jobs' : List Job} (h : e.processJobs jobs = .ok (jobs', e')) : e'.task = e.task := by
  induction jobs generalizing e jobs' with
  | nil =>
      obtain ⟨-, rfl⟩ := Prod.mk.inj (pure_eq_ok_iff.1 h)
      rfl
  | cons job jobs ih =>
      simp only [processJobs, bind_eq_ok_iff, pure_eq_ok_iff, Prod.mk.injEq] at h
      obtain ⟨⟨_, e₁⟩, hjob, ⟨_, e₂⟩, hjobs, -, rfl⟩ := h
      exact (ih hjobs).trans (task_processJob hjob)

theorem task_sweep {number : Nat} {ended : Option Status} (h : e.sweep number = .ok (ended, e')) :
    e'.task = e.task := by
  simp only [sweep, bind_eq_ok_iff, pure_eq_ok_iff, Prod.mk.injEq] at h
  obtain ⟨⟨jobs, e₁⟩, hjobs, ⟨_, e₂⟩, hcommit, _, -, ⟨_, schedule⟩, -, -, rfl⟩ := h
  have h₁ := task_processJobs hjobs
  have h₂ := task_commit hcommit
  calc _ = e₂.task := task_print _ _ _
    _ = e₁.task := h₂
    _ = e.task := h₁

theorem task_sweepsFrom {done left : Nat} {result : Status × Nat} (h : sweepsFrom done left e = .ok (result, e')) :
    e'.task = e.task := by
  induction left generalizing done e with
  | zero =>
      obtain ⟨-, rfl⟩ := Prod.mk.inj (pure_eq_ok_iff.1 h)
      rfl
  | succ left ih =>
      obtain ⟨⟨ended, e₁⟩, hsweep, h⟩ := bind_eq_ok_iff.1 h
      have hkept := task_sweep hsweep
      cases ended with
      | some status =>
          obtain ⟨-, rfl⟩ := Prod.mk.inj (pure_eq_ok_iff.1 h)
          exact hkept
      | none => exact (ih h).trans hkept

theorem task_runSweeps {result : Status × Nat} (h : e.runSweeps = .ok (result, e')) : e'.task = e.task := by
  simp only [runSweeps, bind_eq_ok_iff] at h
  obtain ⟨e₁, hrebase, ⟨_, e₂⟩, hcommit, _, -, _, -, h⟩ := h
  have hkept := (task_commit hcommit).trans (task_rebase hrebase)
  split at h
  · obtain ⟨-, rfl⟩ := Prod.mk.inj (pure_eq_ok_iff.1 h)
    exact hkept
  · obtain ⟨schedule, -, h⟩ := bind_eq_ok_iff.1 h
    exact (task_sweepsFrom h).trans hkept

theorem task_finish (h : e.finish = .ok e') : e'.task = e.task := by
  obtain ⟨e₁, hrebase, h⟩ := bind_eq_ok_iff.1 h
  rw [← task_rebase hrebase, ← pure_eq_ok_iff.1 h]
  rfl

theorem task_runSweeps_finish {result : Status × Nat} (h : (do
      let (result, g) ← e.runSweeps
      return (result, ← g.finish) : Checked ((Status × Nat) × Engine α)) = .ok (result, e')) :
    e'.task = e.task := by
  simp only [bind_eq_ok_iff, pure_eq_ok_iff, Prod.mk.injEq] at h
  obtain ⟨⟨_, e₁⟩, hsweeps, e₂, hfinish, -, rfl⟩ := h
  exact (task_finish hfinish).trans (task_runSweeps hsweeps)

theorem task_run (h : e.run = .ok (status, e')) : e'.task = e.task := by
  unfold run at h
  dsimp only at h
  split at h
  on_goal 1 => obtain ⟨_, -, h⟩ := bind_eq_ok_iff.1 h
  all_goals
    rw [pure_bind_ok] at h
    obtain ⟨⟨⟨_, _⟩, e₁⟩, htimed, h⟩ := bind_eq_ok_iff.1 h
    have hkept := task_timed htimed fun _ _ _ => task_runSweeps_finish
    obtain ⟨-, rfl⟩ := Prod.mk.inj (pure_eq_ok_iff.1 h)
    rw [task_print] at hkept
    rw [task_tell, task_print]
  · exact hkept.trans (task_print _ _ _)
  · exact hkept

end Engine

/-! ### Projections -/

namespace Projection

open Engine

variable {s s' : Projection α σ}

theorem task_withEngine {β : Type} {act : Engine α → Checked (β × Engine α)} {b : β}
    (h : s.withEngine act = .ok (b, s')) (hact : ∀ g b g', act g = .ok (b, g') → g'.task = g.task) :
    s'.engine.task = s.engine.task := by
  simp only [withEngine, bind_eq_ok_iff, pure_eq_ok_iff, Prod.mk.injEq] at h
  obtain ⟨⟨_, g⟩, hg, -, rfl⟩ := h
  exact hact _ _ _ hg

theorem task_updatePoint {change : α} (h : s.updatePoint = .ok (change, s')) : s'.engine.task = s.engine.task := by
  simp only [updatePoint, bind_eq_ok_iff, pure_eq_ok_iff, Prod.mk.injEq] at h
  obtain ⟨_, -, _, -, -, rfl⟩ := h
  rfl

theorem task_startColumn {j : Nat} (h : startColumn e j = .ok e') : e'.task = e.task := by
  simp only [startColumn, bind_eq_ok_iff] at h
  obtain ⟨_, -, _, -, h⟩ := h
  split at h
  · simp only [bind_eq_ok_iff, pure_eq_ok_iff] at h
    obtain ⟨⟨_, e₁⟩, hbind, rfl⟩ := h
    exact task_bindColumn hbind
  · obtain ⟨_, -, h⟩ := bind_eq_ok_iff.1 h
    split at h
    · simp only [bind_eq_ok_iff, pure_eq_ok_iff] at h
      obtain ⟨⟨_, e₁⟩, hbind, rfl⟩ := h
      exact task_bindColumn hbind
    · rw [← pure_eq_ok_iff.1 h]

theorem task_start (h : s.start = .ok s') : s'.engine.task = s.engine.task := by
  simp only [start, bind_eq_ok_iff, pure_eq_ok_iff] at h
  obtain ⟨_, -, e₁, hrows, e₂, hcols, rfl⟩ := h
  have hadded := foldlM_keeps (fun g => g.task = s.engine.task) hrows rfl fun _ _ g g' hg hstep => by
    simp only [bind_eq_ok_iff, pure_eq_ok_iff] at hstep
    obtain ⟨⟨_, g₁⟩, hadd, rfl⟩ := hstep
    exact (task_addRow hadd).trans hg
  exact foldlM_keeps (fun g => g.task = s.engine.task) hcols hadded fun _ _ _ _ hg hstep =>
    (task_startColumn hstep).trans hg

theorem task_moveColumn {j : Nat} {z : α} {met : Bool} (h : moveColumn e j z = .ok (met, e')) : e'.task = e.task := by
  simp only [moveColumn, bind_eq_ok_iff] at h
  obtain ⟨_, -, _, -, _, -, h⟩ := h
  split at h
  · obtain ⟨-, rfl⟩ := Prod.mk.inj (pure_eq_ok_iff.1 h)
    rfl
  · exact task_bindColumn h
  · exact Engine.task_freeColumn h

theorem task_addViolated {x : Array α} {i : Nat} {met : Bool} (h : addViolated x e i = .ok (met, e')) :
    e'.task = e.task := by
  obtain ⟨_, -, h⟩ := bind_eq_ok_iff.1 h
  split at h
  · obtain ⟨-, rfl⟩ := Prod.mk.inj (pure_eq_ok_iff.1 h)
    rfl
  · simp only [bind_eq_ok_iff] at h
    obtain ⟨_, -, _, -, _, -, h⟩ := h
    split at h
    · obtain ⟨-, rfl⟩ := Prod.mk.inj (pure_eq_ok_iff.1 h)
      rfl
    · exact task_addRow h

theorem task_countMet {ι : Type} {act : Engine α → ι → Checked (Bool × Engine α)} {items : List ι} {n : Nat}
    (h : countMet act e items = .ok (n, e')) (hact : ∀ g i b g', act g i = .ok (b, g') → g'.task = g.task) :
    e'.task = e.task := by
  refine foldlM_keeps (fun c => c.2.task = e.task) h rfl ?_
  rintro i - ⟨n, g⟩ ⟨n', g'⟩ hg hstep
  simp only [bind_eq_ok_iff, pure_eq_ok_iff, Prod.mk.injEq] at hstep
  obtain ⟨⟨_, g₁⟩, hmet, -, rfl⟩ := hstep
  exact (hact _ _ _ _ hmet).trans hg

theorem task_reconcile {changed : Bool} (h : s.reconcile = .ok (changed, s')) : s'.engine.task = s.engine.task := by
  simp only [reconcile, bind_eq_ok_iff, pure_eq_ok_iff, Prod.mk.injEq] at h
  obtain ⟨_, -, ⟨_, e₁⟩, hmoved, ⟨_, e₂⟩, hadded, -, rfl⟩ := h
  have h₁ := task_countMet hmoved fun g j b g' hg => by
    obtain ⟨_, -, hmove⟩ := bind_eq_ok_iff.1 hg
    exact task_moveColumn hmove
  exact (task_countMet hadded fun _ _ _ _ => task_addViolated).trans h₁

theorem task_runInner {ended : Option Status} (h : s.runInner = .ok (ended, s')) : s'.engine.task = s.engine.task := by
  unfold runInner at h
  split at h
  · obtain ⟨-, rfl⟩ := Prod.mk.inj (pure_eq_ok_iff.1 h)
    rfl
  split at h
  · obtain ⟨-, rfl⟩ := Prod.mk.inj (pure_eq_ok_iff.1 h)
    rfl
  obtain ⟨advice, -, h⟩ := bind_eq_ok_iff.1 h
  split at h
  · obtain ⟨-, rfl⟩ := Prod.mk.inj (pure_eq_ok_iff.1 h)
    rfl
  obtain ⟨e₁, hdual, h⟩ := bind_eq_ok_iff.1 h
  have hkept := task_setDual hdual
  split at h
  all_goals
    obtain ⟨-, rfl⟩ := Prod.mk.inj (pure_eq_ok_iff.1 h)
    exact hkept

theorem task_ascend (h : s.ascend = .ok (status, s')) : s'.engine.task = s.engine.task := by
  obtain ⟨⟨ended, s₁⟩, hinner, h⟩ := bind_eq_ok_iff.1 h
  have hkept := task_runInner hinner
  cases ended with
  | some status =>
      obtain ⟨-, rfl⟩ := Prod.mk.inj (pure_eq_ok_iff.1 h)
      exact hkept
  | none => exact (task_withEngine h fun _ _ _ => task_run).trans hkept

theorem task_round {number : Nat} {ended : Option Status} (h : s.round number = .ok (ended, s')) :
    s'.engine.task = s.engine.task := by
  simp only [round, bind_eq_ok_iff] at h
  obtain ⟨⟨status, s₁⟩, hascend, ⟨_, s₂⟩, hpoint, h⟩ := h
  have h₂ := (task_updatePoint hpoint).trans (task_ascend hascend)
  split at h
  · obtain ⟨-, rfl⟩ := Prod.mk.inj (pure_eq_ok_iff.1 h)
    exact h₂
  · simp only [bind_eq_ok_iff] at h
    obtain ⟨⟨changed, s₃⟩, hreconcile, feasible, -, h⟩ := h
    have h₃ := (task_reconcile hreconcile).trans h₂
    split at h
    all_goals
      obtain ⟨-, rfl⟩ := Prod.mk.inj (pure_eq_ok_iff.1 h)
      exact h₃

theorem task_roundsFrom {number left : Nat} (h : roundsFrom number left s = .ok (status, s')) :
    s'.engine.task = s.engine.task := by
  induction left generalizing number s with
  | zero =>
      obtain ⟨-, rfl⟩ := Prod.mk.inj (pure_eq_ok_iff.1 h)
      rfl
  | succ left ih =>
      obtain ⟨⟨ended, s₁⟩, hround, h⟩ := bind_eq_ok_iff.1 h
      have hkept := task_round hround
      cases ended with
      | some status =>
          obtain ⟨-, rfl⟩ := Prod.mk.inj (pure_eq_ok_iff.1 h)
          exact hkept
      | none => exact (ih h).trans hkept

theorem task_rounds (h : s.rounds = .ok (status, s')) : s'.engine.task = s.engine.task := by
  unfold rounds at h
  split at h
  · simp only [bind_eq_ok_iff, pure_eq_ok_iff, Prod.mk.injEq] at h
    obtain ⟨⟨_, s₁⟩, hpoint, -, rfl⟩ := h
    exact task_updatePoint hpoint
  · dsimp only at h
    split at h
    · exact task_roundsFrom h
    · obtain ⟨s₁, hstart, h⟩ := bind_eq_ok_iff.1 h
      exact (task_roundsFrom h).trans (task_start hstart)

/-- A projection keeps the problem and the settings. -/
theorem task_solve (h : s.solve = .ok (status, s')) : s'.engine.task = s.engine.task := by
  simp only [solve, bind_eq_ok_iff] at h
  obtain ⟨⟨status', s₁⟩, hrounds, h⟩ := h
  have hkept := task_rounds hrounds
  split at h
  on_goal 1 => obtain ⟨shown, -, h⟩ := bind_eq_ok_iff.1 h
  all_goals
    obtain ⟨-, rfl⟩ := Prod.mk.inj (pure_eq_ok_iff.1 h)
    exact (task_print _ _ _).trans hkept

end Projection

end PolyProjection
