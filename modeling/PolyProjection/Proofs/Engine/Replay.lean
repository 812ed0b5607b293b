import Mathlib
import PolyProjection.Proofs.Engine.Tracking

/-! Commits. The replay of the logs passes over every change that another one has taken back, so it ends with the factor
of the working set, as a fresh factorization does. -/

namespace PolyProjection

theorem FlopHistory.factored_recordUpdate (h : FlopHistory) (flops : Float) (count : ℕ) (isPartial : Bool) :
    (h.recordUpdate flops count isPartial).factored = h.factored := by
  rw [recordUpdate]
  split_ifs <;> rfl

theorem FlopHistory.shouldRefactor_of_unfactored {h : FlopHistory} (hnone : h.factored = false) (nactive nmod : ℕ) :
    h.shouldRefactor nactive nmod = true := by
  rw [shouldRefactor, hnone]
  rfl

theorem ModificationLog.eq_empty_of_size {l : ModificationLog} (h : l.size = 0) : l = .empty := by
  obtain ⟨added, deleted, freed, bound⟩ := l
  simp only [size, Nat.add_eq_zero_iff, Array.size_eq_zero_iff] at h
  obtain ⟨⟨⟨rfl, rfl⟩, rfl⟩, rfl⟩ := h
  rfl

namespace Engine

set_option linter.unusedSectionVars false

variable {K : Type} [Field K] [LinearOrder K] [IsStrictOrderedRing K]

variable {s : Fill} {free act : ℕ → Bool} {e e' : Engine K} {r : Replay K} {i j : ℕ}

/-- The factor is that of the working set. -/
structure Matches (s : Fill) (e : Engine K) : Prop where
  inFactor : e.inFactor = table e.problem.ncols fun j => e.set.colAt j == .free
  factor : e.factor =
    s.canonical e.problem.a (fun j => e.set.colAt j == .free) (fun i => (e.set.rowAt i).isActive) e.sigma
  factored : e.flops.factored = true

namespace Replay

/-- The factor holds the columns and the rows of two masks, and the rest of the engine is as it was. -/
def Holding (s : Fill) (e : Engine K) (free act : ℕ → Bool) (r : Replay K) : Prop :=
  r.engine = { e with
    factor := s.canonical e.problem.a free act e.sigma
    inFactor := table e.problem.ncols free }

theorem Holding.fetch_column (h : Holding s e free act r) (hj : j < e.problem.ncols) :
    fetch r.engine.inFactor j = .ok (free j) := by
  rw [h]
  exact fetch_table hj

theorem Holding.isFree (h : Holding s e free act r) (hr : e.Regular) (hj : j < e.problem.ncols) :
    r.engine.set.isFree j = .ok (e.set.colAt j == .free) := by
  rw [h]
  exact ActiveSet.isFree_eq (by rw [hr.set.size_colStatus]; exact hj)

theorem Holding.fetch_row (h : Holding s e free act r) (hi : i < s.size) :
    fetch r.engine.factor.active i = .ok (act i) := by
  rw [h]
  exact fetch_table hi

theorem Holding.isRowActive (h : Holding s e free act r) (hr : e.Regular) (hi : i < e.problem.nrows) :
    r.engine.set.isRowActive i = .ok (e.set.rowAt i).isActive := by
  rw [h]
  exact hr.set.isRowActive_eq hi

section Changes

variable (hr : e.Regular) (hs : s.Covers e.problem.a) (hsigma : 0 < e.sigma) (hhold : Holding s e free act r)

include hr hs hsigma hhold

theorem changeColumn_ok (hj : j < e.problem.ncols) (b : Bool) (alpha : K)
    (halpha : alpha = (if b then 1 else 0) - if free j then 1 else 0) : ∃ change inFactor,
      r.engine.factor.addColumn (LdlFactor.lift r.engine.factor.sigma) r.engine.problem.a j alpha = .ok change ∧
      store r.engine.inFactor j b = .ok inFactor ∧ ∀ flops count, Holding s e (Function.update free j b) act
        ⟨{ r.engine with factor := change.1, inFactor := inFactor }, flops, count⟩ := by
  have hok : ∃ flops, (s.canonical e.problem.a free act e.sigma).addColumn (LdlFactor.lift e.sigma) e.problem.a j
      alpha = .ok (s.canonical e.problem.a (Function.update free j b) act e.sigma, flops) :=
    LdlFactor.addColumn_ok (LdlFactor.lift e.sigma) hr.problem.formatted hs hsigma (fun _ => LdlFactor.lift_of_le) hj
      (fun c hc => Function.update_of_ne hc b free) (by rw [Function.update_self]; exact halpha)
  obtain ⟨count, hok⟩ := hok
  rw [hhold]
  exact ⟨_, _, hok, store_table b hj, fun _ _ => rfl⟩

theorem bindColumn_ok (hj : j < e.problem.ncols) : ∃ r', r.bindColumn j = .ok r' ∧
    Holding s e (Function.update free j (free j && e.set.colAt j == .free)) act r' := by
  rw [bindColumn]
  simp only [hhold.fetch_column hj, hhold.isFree hr hj, ok_bind]
  cases hin : free j with
  | false =>
      refine ⟨r, rfl, ?_⟩
      rw [Bool.false_and, ← hin, Function.update_eq_self]
      exact hhold
  | true =>
      cases hfree : e.set.colAt j == .free with
      | false =>
          obtain ⟨change, inFactor, hchange, hstore, hholds⟩ :=
            changeColumn_ok hr hs hsigma hhold hj false (-1) (by simp [hin])
          exact ⟨_, bind_eq_ok_iff.2 ⟨change, hchange, bind_eq_ok_iff.2 ⟨inFactor, hstore, rfl⟩⟩, hholds _ _⟩
      | true =>
          refine ⟨r, rfl, ?_⟩
          rw [Bool.and_true, ← hin, Function.update_eq_self]
          exact hhold

theorem freeColumn_ok (hj : j < e.problem.ncols) : ∃ r', r.freeColumn j = .ok r' ∧
    Holding s e (Function.update free j (free j || e.set.colAt j == .free)) act r' := by
  rw [freeColumn]
  simp only [hhold.fetch_column hj, hhold.isFree hr hj, ok_bind]
  cases hin : free j with
  | true =>
      refine ⟨r, rfl, ?_⟩
      rw [Bool.true_or, ← hin, Function.update_eq_self]
      exact hhold
  | false =>
      cases hfree : e.set.colAt j == .free with
      | true =>
          obtain ⟨change, inFactor, hchange, hstore, hholds⟩ :=
            changeColumn_ok hr hs hsigma hhold hj true 1 (by simp [hin])
          exact ⟨_, bind_eq_ok_iff.2 ⟨change, hchange, bind_eq_ok_iff.2 ⟨inFactor, hstore, rfl⟩⟩, hholds _ _⟩
      | false =>
          refine ⟨r, rfl, ?_⟩
          rw [Bool.or_false, ← hin, Function.update_eq_self]
          exact hhold

theorem deleteRow_ok (hi : i < e.problem.nrows) : ∃ r', r.deleteRow i = .ok r' ∧
    Holding s e free (Function.update act i (act i && (e.set.rowAt i).isActive)) r' := by
  have his : i < s.size := hs.size_eq ▸ hi
  rw [deleteRow]
  simp only [hhold.fetch_row his, hhold.isRowActive hr hi, ok_bind]
  cases hin : act i with
  | false =>
      refine ⟨r, rfl, ?_⟩
      rw [Bool.false_and, ← hin, Function.update_eq_self]
      exact hhold
  | true =>
      cases hactive : (e.set.rowAt i).isActive with
      | false =>
          obtain ⟨count, hok⟩ := LdlFactor.deleteRowWith_ok free act (LdlFactor.lift e.sigma) hs hsigma
            (fun _ => LdlFactor.lift_of_le) his hin
          have hdelete : r.engine.factor.deleteRow i =
              .ok (s.canonical e.problem.a free (Function.update act i false) e.sigma, count) := by
            rw [hhold]
            exact hok
          refine ⟨_, bind_eq_ok_iff.2 ⟨_, hdelete, rfl⟩, ?_⟩
          rw [Holding, record, hhold]
          rfl
      | true =>
          refine ⟨r, rfl, ?_⟩
          rw [Bool.and_true, ← hin, Function.update_eq_self]
          exact hhold

theorem addRow_ok (hi : i < e.problem.nrows) : ∃ r', r.addRow i = .ok r' ∧
    Holding s e free (Function.update act i (act i || (e.set.rowAt i).isActive)) r' := by
  have his : i < s.size := hs.size_eq ▸ hi
  rw [addRow]
  simp only [hhold.fetch_row his, hhold.isRowActive hr hi, ok_bind]
  cases hin : act i with
  | true =>
      refine ⟨r, rfl, ?_⟩
      rw [Bool.true_or, ← hin, Function.update_eq_self]
      exact hhold
  | false =>
      cases hactive : (e.set.rowAt i).isActive with
      | true =>
          obtain ⟨count, hok⟩ := LdlFactor.addRowWith_ok free act (LdlFactor.lift e.sigma)
            hr.problem.formatted hr.problem.transpose hs hsigma (fun _ => LdlFactor.lift_of_le) his hin
          have hadd : r.engine.factor.addRow r.engine.problem.a r.engine.problem.aT r.engine.inFactor i =
              .ok (s.canonical e.problem.a free (Function.update act i true) e.sigma, count) := by
            rw [hhold]
            exact hok
          refine ⟨_, bind_eq_ok_iff.2 ⟨_, hadd, rfl⟩, ?_⟩
          rw [Holding, record, hhold]
          rfl
      | false =>
          refine ⟨r, rfl, ?_⟩
          rw [Bool.or_false, ← hin, Function.update_eq_self]
          exact hhold

end Changes

end Replay

/-- The first loop takes what is noted to leave, the second one what is noted to enter, each only if that is how it is. -/
theorem mask_replayed {mask p : ℕ → Bool} {out into : Array ℕ} (hinto : ∀ k, p k = true → mask k = true ∨ k ∈ into)
    (hout : ∀ k, p k = false → mask k = false ∨ k ∈ out) :
    (fun k => if k ∈ into then (if k ∈ out then mask k && p k else mask k) || p k
      else if k ∈ out then mask k && p k else mask k) = p := by
  funext k
  cases hp : p k with
  | true =>
      rcases hinto k hp with hin | hlog
      · simp [hin]
      · rw [if_pos hlog, Bool.or_true]
  | false =>
      rcases hout k hp with hin | hlog
      · simp [hin]
      · rw [if_pos hlog, Bool.and_false, Bool.or_false, ite_self]

section Commits

variable (hr : e.Regular) (h : Tracks s free act e)

include hr h

/-- A column that is noted to be bound, freed or both is in the factor afterwards if it is free, and no other one was
behind. -/
theorem Tracks.applyUpdates_ok (isPartial : Bool) (hfactored : e.flops.factored = true)
    (hdropped : e.set.dropped = #[]) :
    ∃ e', e.applyUpdates isPartial = .ok e' ∧ Matches s e' ∧ e'.set = e.set := by
  have hlt : ∀ c k, e.Logs c k → k < e.limit c := h.in_range
  have hstart : Replay.Holding s e free act ⟨e, 0, 0⟩ := by
    rw [Replay.Holding, ← h.factored hfactored, ← h.inFactor]
  obtain ⟨r₁, hbind, h₁⟩ := foldlM_mask (fun free => Replay.Holding s e free act)
    (fun j b => b && e.set.colAt j == .free) e.log.colsBound (fun j b => by simp) hstart
    fun j hj free r hhold => Replay.bindColumn_ok hr h.covers h.sigma_pos hhold (hlt .colBound j hj)
  obtain ⟨r₂, hdelete, h₂⟩ := foldlM_mask (fun act => Replay.Holding s e _ act)
    (fun i b => b && (e.set.rowAt i).isActive) e.log.rowsDeleted (fun j b => by simp) h₁
    fun i hi act r hhold => Replay.deleteRow_ok hr h.covers h.sigma_pos hhold (hlt .rowDeleted i (Or.inl hi))
  obtain ⟨r₃, hadd, h₃⟩ := foldlM_mask (fun act => Replay.Holding s e _ act)
    (fun i b => b || (e.set.rowAt i).isActive) e.log.rowsAdded (fun j b => by simp) h₂
    fun i hi act r hhold => Replay.addRow_ok hr h.covers h.sigma_pos hhold (hlt .rowAdded i hi)
  obtain ⟨r₄, hfree, h₄⟩ := foldlM_mask (fun free => Replay.Holding s e free _)
    (fun j b => b || e.set.colAt j == .free) e.log.colsFreed (fun j b => by simp) h₃
    fun j hj free r hhold => Replay.freeColumn_ok hr h.covers h.sigma_pos hhold (hlt .colFreed j hj)
  have hout : ∀ i, (e.set.rowAt i).isActive = false → act i = false ∨ i ∈ e.log.rowsDeleted := fun i hi => by
    rcases h.logged .rowDeleted i hi with hin | hlog | hlog
    · exact Or.inl hin
    · exact Or.inr hlog
    · rw [hdropped] at hlog
      exact absurd hlog (Array.not_mem_empty i)
  rw [mask_replayed (p := fun j => e.set.colAt j == .free) (fun j hj => h.logged .colFreed j (beq_iff_eq.1 hj))
      fun j hj => h.logged .colBound j (beq_eq_false_iff_ne.1 hj),
    mask_replayed (p := fun i => (e.set.rowAt i).isActive) (fun i hi => h.logged .rowAdded i hi) hout] at h₄
  refine ⟨_, bind_eq_ok_iff.2 ⟨r₁, hbind, bind_eq_ok_iff.2 ⟨r₂, hdelete, bind_eq_ok_iff.2 ⟨r₃, hadd,
    bind_eq_ok_iff.2 ⟨r₄, hfree, rfl⟩⟩⟩⟩, ?_, ?_⟩
  · rw [h₄]
    exact ⟨rfl, rfl, (FlopHistory.factored_recordUpdate ..).trans hfactored⟩
  · rw [h₄]
    rfl

/-- A fresh factorization needs nothing of the old factor but its pattern. -/
theorem Tracks.refactor_ok : ∃ e', e.refactor = .ok e' ∧ Matches s e' ∧ e'.set = e.set := by
  have hfree : (List.range e.problem.ncols).mapM e.set.isFree =
      .ok ((List.range e.problem.ncols).map fun j => e.set.colAt j == .free) :=
    mapM_of_forall fun j hj => ActiveSet.isFree_eq (by rw [hr.set.size_colStatus]; exact List.mem_range.1 hj)
  have hactive : (List.range e.problem.nrows).mapM e.set.isRowActive =
      .ok ((List.range e.problem.nrows).map fun i => (e.set.rowAt i).isActive) :=
    mapM_of_forall fun i hi => hr.set.isRowActive_eq (List.mem_range.1 hi)
  obtain ⟨l, d, sigma, hfactor⟩ := h.factor
  have hfactorize : ∃ count, e.factor.factorize e.problem.a e.problem.aT
      ((List.range e.problem.ncols).map fun j => e.set.colAt j == .free).toArray
      ((List.range e.problem.nrows).map fun i => (e.set.rowAt i).isActive).toArray e.sigma =
        .ok (s.canonical e.problem.a (fun j => e.set.colAt j == .free) (fun i => (e.set.rowAt i).isActive) e.sigma,
          count) := by
    have hok : ∃ count, (s.factor act l d sigma (fun _ => 0) fun _ => 0).factorizeWith (LdlFactor.lift e.sigma)
        e.problem.a e.problem.aT (table e.problem.a.ncols fun j => e.set.colAt j == .free)
        (table s.size fun i => (e.set.rowAt i).isActive) e.sigma = .ok (_, count) :=
      LdlFactor.factorizeWith_ok (LdlFactor.lift e.sigma) hr.problem.formatted hr.problem.transpose h.covers
        h.sigma_pos fun _ => LdlFactor.lift_of_le
    rw [h.covers.size_eq, ← hfactor] at hok
    rw [toArray_map_range, toArray_map_range]
    exact hok
  obtain ⟨count, hfactorize⟩ := hfactorize
  refine ⟨_, bind_eq_ok_iff.2 ⟨_, hfree, bind_eq_ok_iff.2 ⟨_, hactive, bind_eq_ok_iff.2 ⟨_, hfactorize, rfl⟩⟩⟩,
    ⟨toArray_map_range .., rfl, rfl⟩, rfl⟩

end Commits

/-- The engine with the drops of the working set in the log. -/
def logDrops (e : Engine K) : Engine K :=
  { e with
    set := { e.set with dropped := #[] }
    log := { e.log with rowsDeleted := e.log.rowsDeleted ++ e.set.dropped } }

theorem logDrops_noted (e : Engine K) : Noted e e.logDrops := by
  refine KeepsFactor.noted ⟨rfl, rfl, rfl, rfl, rfl⟩ (fun c k => ?_) fun c k => ?_
  · cases c <;> simp [Logs, logDrops]
  · cases c <;> exact id

theorem sameState_logDrops (e : Engine K) : SameState e e.logDrops :=
  ⟨rfl, rfl, rfl, ⟨_, rfl⟩, rfl, rfl, rfl, rfl, rfl, rfl⟩

/-- What is done under a timer can be done if it can be done with any timers. -/
theorem timed_ok {key : String} {step : Engine K → Checked (Engine K)} {e' : Engine K}
    (hok : step { e with timers := e.timers.start key } = .ok e') :
    (e.timed key fun e => return ((), ← step e)) = .ok ((), { e' with timers := e'.timers.stop }) :=
  bind_eq_ok_iff.2 ⟨((), e'), bind_eq_ok_iff.2 ⟨e', hok, rfl⟩, rfl⟩

/-- With nothing noted the factor already is that of the working set. -/
theorem Tracks.matches_of_empty (h : Tracks s free act e) (hfactored : e.flops.factored = true)
    (hnone : ∀ c k, ¬ e.Logs c k) : Matches s e := by
  have hfree : free = fun j => e.set.colAt j == .free := by
    funext j
    cases hcol : e.set.colAt j == .free with
    | true => exact (h.logged .colFreed j (beq_iff_eq.1 hcol)).resolve_right (hnone _ _)
    | false => exact (h.logged .colBound j (beq_eq_false_iff_ne.1 hcol)).resolve_right (hnone _ _)
  have hact : act = fun i => (e.set.rowAt i).isActive := by
    funext i
    cases hrow : (e.set.rowAt i).isActive with
    | true => exact (h.logged .rowAdded i hrow).resolve_right (hnone _ _)
    | false => exact (h.logged .rowDeleted i hrow).resolve_right (hnone _ _)
  rw [hfree, hact] at h
  exact ⟨h.inFactor, h.factored hfactored, hfactored⟩

theorem not_logs_of_empty (hlog : e.log = .empty) (hdropped : e.set.dropped = #[]) (c : Change) (k : ℕ) :
    ¬ e.Logs c k := by
  cases c <;> simp [Logs, hlog, hdropped, ModificationLog.empty]

theorem Matches.of_keeps (h : Matches s e) (hkeeps : KeepsFactor e e') (hset : e'.set = e.set) : Matches s e' where
  inFactor := by
    rw [hkeeps.inFactor, hkeeps.problem, hset]
    exact h.inFactor
  factor := by
    rw [hkeeps.factor, hkeeps.problem, hkeeps.sigma, hset]
    exact h.factor
  factored := by
    rw [hkeeps.flops]
    exact h.factored

/-- A commit is carried out, and after it the factor is that of the working set and nothing is noted. -/
theorem Tracks.commit_ok (hr : e.Regular) (h : Tracks s free act e) (isPartial : Bool) :
    ∃ refactored e', e.commit isPartial = .ok (refactored, e') ∧ Matches s e' ∧ e'.log = .empty ∧
      e'.set.dropped = #[] := by
  have hr₁ := (sameState_logDrops e).regular hr
  have h₁ := h.of_noted (logDrops_noted e)
  have hstart : ∀ key, Quiet e.logDrops { e.logDrops with timers := e.logDrops.timers.start key } :=
    fun key => ⟨_, _, _, _, _, rfl⟩
  by_cases hnone : (e.logDrops.log.size == 0 && e.logDrops.flops.factored) = true
  · refine ⟨false, e.logDrops, if_pos hnone, ?_⟩
    obtain ⟨hsize, hfactored⟩ := Bool.and_eq_true_iff.1 hnone
    have hempty := ModificationLog.eq_empty_of_size (beq_iff_eq.1 hsize)
    exact ⟨h₁.matches_of_empty hfactored (not_logs_of_empty hempty rfl), hempty, rfl⟩
  · cases hchoice : e.logDrops.flops.shouldRefactor e.logDrops.set.activeCount e.logDrops.log.size with
    | true =>
        obtain ⟨g, hok, hmatches, hset⟩ :=
          (h₁.of_noted (hstart "factor").noted).refactor_ok ((hstart "factor").sameState.regular hr₁)
        refine ⟨_, { g with timers := g.timers.stop, log := .empty },
          (if_neg hnone).trans ((if_pos hchoice).trans (bind_eq_ok_iff.2 ⟨_, timed_ok hok, rfl⟩)),
          hmatches.of_keeps ⟨rfl, rfl, rfl, rfl, rfl⟩ rfl, rfl, congrArg ActiveSet.dropped hset⟩
    | false =>
        have hfactored : e.logDrops.flops.factored = true := by
          by_contra hfactored
          rw [FlopHistory.shouldRefactor_of_unfactored (Bool.eq_false_iff.2 hfactored)] at hchoice
          cases hchoice
        obtain ⟨g, hok, hmatches, hset⟩ := (h₁.of_noted (hstart "update").noted).applyUpdates_ok
          ((hstart "update").sameState.regular hr₁) isPartial hfactored rfl
        refine ⟨_, { g with timers := g.timers.stop, log := .empty },
          (if_neg hnone).trans ((if_neg (Bool.eq_false_iff.1 hchoice)).trans (bind_eq_ok_iff.2 ⟨_, timed_ok hok, rfl⟩)),
          hmatches.of_keeps ⟨rfl, rfl, rfl, rfl, rfl⟩ rfl, rfl, congrArg ActiveSet.dropped hset⟩

/-- Whatever a commit answers with, the factor is that of the working set and nothing is noted. -/
theorem Tracks.of_commit (hr : e.Regular) (h : Tracks s free act e) {isPartial refactored : Bool}
    (hok : e.commit isPartial = .ok (refactored, e')) :
    Matches s e' ∧ e'.log = .empty ∧ e'.set.dropped = #[] := by
  obtain ⟨_, _, hok', hcommitted⟩ := h.commit_ok hr isPartial
  obtain ⟨-, rfl⟩ := Prod.mk.inj (Except.ok.inj (hok'.symm.trans hok))
  exact hcommitted

end Engine

end PolyProjection
