import Mathlib
import PolyProjection.Proofs.Engine.Basic

/-! What the requests do to an engine. Each one that is met changes the status of one row or column and logs it;
one that is not met changes nothing. All of them keep an engine regular and its multipliers dual feasible. -/

namespace PolyProjection.Engine

set_option linter.unusedSectionVars false

variable {K : Type} [Field K] [LinearOrder K] [IsStrictOrderedRing K]

variable {e e' : Engine K} {i j : Nat} {side : Side} {b : Bool}

/-- The engine after row `i` has entered with a status. -/
structure RowAdded (e e' : Engine K) (i : Nat) (st : RowStatus) : Prop where
  lt : i < e.problem.nrows
  active : st.isActive = true
  dropped : e.set.rowAt i = .dropped
  fits : st.FitsRow e.problem i
  lambda_lt : i < e.lambda.size
  dlambda_lt : i < e.dlambda.size
  eq : ∃ set rows, e.set.activate i st = .ok set ∧
    set = { e.set with rows := rows, rowStatus := e.set.rowStatus.setIfInBounds i st } ∧
    e' = tell { e with
      set := set
      lambda := e.lambda.setIfInBounds i 0
      dlambda := e.dlambda.setIfInBounds i 0
      log := { e.log with rowsAdded := e.log.rowsAdded.push i }
      stats := { e.stats with rowsAdded := e.stats.rowsAdded + 1 } } (.rowAdded i st)

/-- The engine after column `j` has been held at a side. -/
structure ColumnBound (e e' : Engine K) (j : Nat) (side : Side) : Prop where
  lt : j < e.problem.ncols
  fits : side.columnStatus.FitsColumn e.problem j
  eq : ∃ set bound free freePos, e.set.activateBound j side = .ok set ∧
    set = { e.set with
      bound := bound
      free := free
      freePos := freePos
      colStatus := e.set.colStatus.setIfInBounds j side.columnStatus } ∧
    e' = tell (if e.set.colAt j = .free then
      { e with
        set := set
        log := { e.log with colsBound := e.log.colsBound.push j }
        stats := { e.stats with colsBound := e.stats.colsBound + 1 } }
    else { e with set := set }) (.columnBound j side)

/-- The engine after column `j` has been released. -/
structure ColumnReleased (e e' : Engine K) (j : Nat) : Prop where
  lt : j < e.problem.ncols
  eq : ∃ set bound free freePos, e.set.release j = .ok set ∧
    set = { e.set with
      bound := bound
      free := free
      freePos := freePos
      colStatus := e.set.colStatus.setIfInBounds j .free } ∧
    e' = { e with
      set := set
      log := { e.log with colsFreed := e.log.colsFreed.push j }
      stats := { e.stats with colsFreed := e.stats.colsFreed + 1 } }

theorem fitsRow_of_entryStatus? {p : Problem K} (hp : p.WellPosed) (hi : i < p.nrows) {st : RowStatus}
    (h : entryStatus? p i side = .ok (some st)) : st.FitsRow p i := by
  unfold entryStatus? at h
  rw [hp.isEquality_ok hi, ok_bind] at h
  cases hpoint : (p.blAt i).isPoint (p.buAt i) with
  | true =>
      rw [hpoint, if_pos rfl, pure_eq_ok_iff, Option.some.injEq] at h
      rw [← h]
      exact hpoint
  | false =>
      rw [hpoint, if_neg (by decide)] at h
      cases side with
      | lower =>
          simp only [hp.fetch_bl hi, ok_bind, pure_eq_ok_iff] at h
          split at h
          · rename_i hfin
            rw [Option.some.injEq] at h
            rw [← h]
            exact ⟨hpoint, Bound.isFinite_exact_iff.1 hfin⟩
          · cases h
      | upper =>
          simp only [hp.fetch_bu hi, ok_bind, pure_eq_ok_iff] at h
          split at h
          · rename_i hfin
            rw [Option.some.injEq] at h
            rw [← h]
            exact ⟨hpoint, Bound.isFinite_exact_iff.1 hfin⟩
          · cases h

/-- A request for a row is met or changes nothing. -/
theorem Regular.of_addRow (h : e.Regular) (hok : e.addRow i side = .ok (b, e')) :
    b = false ∧ e' = e ∨ b = true ∧ ∃ st, RowAdded e e' i st := by
  unfold addRow at hok
  rw [bind_eq_ok_iff] at hok
  obtain ⟨active, hactive, hok⟩ := hok
  cases active with
  | true =>
      rw [if_pos rfl, pure_eq_ok_iff, Prod.mk.injEq] at hok
      exact .inl ⟨hok.1.symm, hok.2.symm⟩
  | false =>
      rw [if_neg (by decide), bind_eq_ok_iff] at hok
      obtain ⟨st?, hst, hok⟩ := hok
      cases st? with
      | none =>
          simp only [pure_eq_ok_iff, Prod.mk.injEq] at hok
          exact .inl ⟨hok.1.symm, hok.2.symm⟩
      | some st =>
          simp only [bind_eq_ok_iff, store_eq_ok_iff, pure_eq_ok_iff, Prod.mk.injEq] at hok
          obtain ⟨set, hset, lambda, ⟨hl, rfl⟩, dlambda, ⟨hd, rfl⟩, rfl, rfl⟩ := hok
          obtain ⟨hi, hact, hdrop, -, rows, heq⟩ := h.set.of_activate hset
          exact .inr ⟨rfl, st, hi, hact, hdrop, fitsRow_of_entryStatus? h.problem hi hst, hl, hd, set, rows, hset,
            heq, rfl⟩

/-- A request to hold a column is met or changes nothing. -/
theorem Regular.of_bindColumn (h : e.Regular) (hok : e.bindColumn j side = .ok (b, e')) :
    b = false ∧ e' = e ∨ b = true ∧ ColumnBound e e' j side := by
  unfold bindColumn at hok
  cases side
  all_goals
    rw [bind_eq_ok_iff] at hok
    obtain ⟨bound, hbound, hok⟩ := hok
    cases hfin : bound.isFinite with
    | false =>
        simp only [hfin, Bool.not_false, if_true, pure_eq_ok_iff, Prod.mk.injEq] at hok
        exact .inl ⟨hok.1.symm, hok.2.symm⟩
    | true =>
        simp only [hfin, Bool.not_true, Bool.false_eq_true, if_false, bind_eq_ok_iff, pure_eq_ok_iff,
          Prod.mk.injEq] at hok
        obtain ⟨wasFree, hwas, set, hset, rfl, rfl⟩ := hok
        obtain ⟨rfl, -⟩ := ActiveSet.isFree_ok hwas
        obtain ⟨hj, list, free, freePos, heq⟩ := ActiveSet.activateBound_eq hset
        have hj' : j < e.problem.ncols := by rwa [h.set.size_colStatus] at hj
        obtain ⟨v, rfl⟩ := Bound.isFinite_exact_iff.1 hfin
        refine .inr ⟨rfl, hj', ⟨v, ?_⟩, set, list, free, freePos, hset, heq, ?_⟩
        · simpa only [h.problem.fetch_lo hj', h.problem.fetch_hi hj', Except.ok.injEq] using hbound
        · cases e.set.colAt j <;> rfl

theorem Regular.of_releaseColumn (h : e.Regular) (hok : e.releaseColumn j = .ok e') : ColumnReleased e e' j := by
  unfold releaseColumn at hok
  simp only [bind_eq_ok_iff, pure_eq_ok_iff] at hok
  obtain ⟨set, hset, rfl⟩ := hok
  obtain ⟨hj, bound, free, freePos, heq⟩ := ActiveSet.release_eq hset
  exact ⟨by rwa [h.set.size_colStatus] at hj, set, bound, free, freePos, hset, heq, rfl⟩

/-- A request to release a column is met or changes nothing. -/
theorem Regular.of_freeColumn (h : e.Regular) (hok : e.freeColumn j = .ok (b, e')) :
    b = false ∧ e' = e ∨ b = true ∧ ∃ g, ColumnReleased e g j ∧ e' = g.tell (.columnFreed j) := by
  unfold freeColumn at hok
  rw [bind_eq_ok_iff] at hok
  obtain ⟨free, -, hok⟩ := hok
  cases free with
  | true =>
      rw [if_pos rfl, pure_eq_ok_iff, Prod.mk.injEq] at hok
      exact .inl ⟨hok.1.symm, hok.2.symm⟩
  | false =>
      simp only [Bool.false_eq_true, if_false, bind_eq_ok_iff, pure_eq_ok_iff, Prod.mk.injEq] at hok
      obtain ⟨g, hg, rfl, rfl⟩ := hok
      exact .inr ⟨rfl, g, h.of_releaseColumn hg, rfl⟩

/-- Writing multipliers changes nothing else. -/
theorem of_setDual {entries : List (Nat × K)} (hok : e.setDual entries = .ok e') :
    ∃ lambda, e' = { e with lambda := lambda } ∧ lambda.size = e.lambda.size := by
  unfold setDual at hok
  simp only [bind_eq_ok_iff, pure_eq_ok_iff] at hok
  obtain ⟨lambda, hfold, rfl⟩ := hok
  refine ⟨lambda, rfl, foldlM_keeps (fun l => l.size = e.lambda.size) hfold rfl fun x _ l l' hl hstep => ?_⟩
  obtain ⟨-, rfl⟩ := store_eq_ok_iff.1 hstep
  rw [Array.size_setIfInBounds, hl]

section Effects

variable {st : RowStatus}

theorem RowAdded.problem_eq (ha : RowAdded e e' i st) : e'.problem = e.problem := by
  obtain ⟨set, rows, -, -, rfl⟩ := ha.eq
  rfl

theorem RowAdded.rowAt (h : e.Regular) (ha : RowAdded e e' i st) (k : Nat) :
    e'.set.rowAt k = if k = i then st else e.set.rowAt k := by
  obtain ⟨set, rows, -, rfl, rfl⟩ := ha.eq
  exact ActiveSet.rowAt_set rfl (by rw [h.set.size_rowStatus]; exact ha.lt) k

theorem RowAdded.colAt (ha : RowAdded e e' i st) (k : Nat) : e'.set.colAt k = e.set.colAt k := by
  obtain ⟨set, rows, -, rfl, rfl⟩ := ha.eq
  rfl

theorem RowAdded.lambda (ha : RowAdded e e' i st) (k : Nat) :
    coord e'.lambda k = if k = i then 0 else coord e.lambda k := by
  obtain ⟨set, rows, -, -, rfl⟩ := ha.eq
  have hlt := ha.lambda_lt
  rw [tell, coord_setIfInBounds]
  simp [hlt]

theorem RowAdded.dlambda (ha : RowAdded e e' i st) (k : Nat) :
    coord e'.dlambda k = if k = i then 0 else coord e.dlambda k := by
  obtain ⟨set, rows, -, -, rfl⟩ := ha.eq
  have hlt := ha.dlambda_lt
  rw [tell, coord_setIfInBounds]
  simp [hlt]

theorem RowAdded.regular (h : e.Regular) (ha : RowAdded e e' i st) : e'.Regular := by
  have hrow := ha.rowAt h
  have hfit := ha.fits
  obtain ⟨set, rows, hset, heq, rfl⟩ := ha.eq
  refine ⟨h.problem, (h.set.of_activate hset).2.2.2.1, fun k => ?_, fun k => ?_, h.heap,
    by simp [tell, h.size_lambda], by simp [tell, h.size_dlambda]⟩
  · rw [hrow]
    split_ifs with hk
    · rw [hk]
      exact hfit
    · exact h.rows_fit k
  · subst heq
    exact h.cols_fit k

theorem RowAdded.dualFeasible (h : e.Regular) (hd : e.DualFeasible) (ha : RowAdded e e' i st) :
    e'.DualFeasible := by
  refine ⟨fun k hk => ?_, fun k => ?_⟩
  · rw [ha.rowAt h] at hk
    rw [ha.lambda, ha.dlambda]
    split_ifs at hk ⊢
    · exact ⟨rfl, rfl⟩
    · exact hd.dropped k hk
  · rw [ha.rowAt h, ha.lambda, ha.dlambda]
    split_ifs
    · rw [add_zero]
      exact st.admits_zero
    · exact hd.on_side k

theorem ColumnBound.problem_eq (hb : ColumnBound e e' j side) : e'.problem = e.problem := by
  obtain ⟨set, bound, free, freePos, -, -, rfl⟩ := hb.eq
  split <;> rfl

theorem ColumnBound.heap_eq (hb : ColumnBound e e' j side) : e'.heap = e.heap := by
  obtain ⟨set, bound, free, freePos, -, -, rfl⟩ := hb.eq
  split <;> rfl

theorem ColumnBound.set_eq (hb : ColumnBound e e' j side) : ∃ bound free freePos, e'.set = { e.set with
    bound := bound
    free := free
    freePos := freePos
    colStatus := e.set.colStatus.setIfInBounds j side.columnStatus } := by
  obtain ⟨set, bound, free, freePos, -, heq, rfl⟩ := hb.eq
  exact ⟨bound, free, freePos, by rw [← heq]; split <;> rfl⟩

theorem ColumnBound.rowAt (hb : ColumnBound e e' j side) (k : Nat) : e'.set.rowAt k = e.set.rowAt k := by
  obtain ⟨bound, free, freePos, hset⟩ := hb.set_eq
  rw [hset]
  rfl

theorem ColumnBound.colAt (h : e.Regular) (hb : ColumnBound e e' j side) (k : Nat) :
    e'.set.colAt k = if k = j then side.columnStatus else e.set.colAt k := by
  obtain ⟨bound, free, freePos, hset⟩ := hb.set_eq
  rw [hset]
  exact ActiveSet.colAt_set rfl (by rw [h.set.size_colStatus]; exact hb.lt) k

theorem ColumnBound.lambda_eq (hb : ColumnBound e e' j side) : e'.lambda = e.lambda ∧ e'.dlambda = e.dlambda := by
  obtain ⟨set, bound, free, freePos, -, -, rfl⟩ := hb.eq
  split <;> exact ⟨rfl, rfl⟩

theorem ColumnBound.regular (h : e.Regular) (hb : ColumnBound e e' j side) : e'.Regular where
  problem := by
    rw [hb.problem_eq]
    exact h.problem
  set := by
    obtain ⟨bound, free, freePos, hset⟩ := hb.set_eq
    rw [hb.problem_eq, hset]
    exact h.set.of_rows_eq rfl rfl (by simp)
  rows_fit := fun k => by
    rw [hb.rowAt, hb.problem_eq]
    exact h.rows_fit k
  cols_fit := fun k => by
    rw [hb.colAt h, hb.problem_eq]
    split_ifs with hk
    · rw [hk]
      exact hb.fits
    · exact h.cols_fit k
  heap := by
    rw [hb.problem_eq, hb.heap_eq]
    exact h.heap
  size_lambda := by
    rw [hb.problem_eq, hb.lambda_eq.1]
    exact h.size_lambda
  size_dlambda := by
    rw [hb.problem_eq, hb.lambda_eq.2]
    exact h.size_dlambda

theorem ColumnBound.dualFeasible (hd : e.DualFeasible) (hb : ColumnBound e e' j side) : e'.DualFeasible :=
  hd.of_eq hb.rowAt hb.lambda_eq.1 hb.lambda_eq.2

theorem ColumnReleased.problem_eq (hr : ColumnReleased e e' j) : e'.problem = e.problem := by
  obtain ⟨set, bound, free, freePos, -, -, rfl⟩ := hr.eq
  rfl

theorem ColumnReleased.rowAt (hr : ColumnReleased e e' j) (k : Nat) : e'.set.rowAt k = e.set.rowAt k := by
  obtain ⟨set, bound, free, freePos, -, rfl, rfl⟩ := hr.eq
  rfl

theorem ColumnReleased.colAt (h : e.Regular) (hr : ColumnReleased e e' j) (k : Nat) :
    e'.set.colAt k = if k = j then .free else e.set.colAt k := by
  have hlt := hr.lt
  obtain ⟨set, bound, free, freePos, -, rfl, rfl⟩ := hr.eq
  exact ActiveSet.colAt_set rfl (by rw [h.set.size_colStatus]; exact hlt) k

theorem ColumnReleased.regular (h : e.Regular) (hr : ColumnReleased e e' j) : e'.Regular := by
  have hcol := hr.colAt h
  obtain ⟨set, bound, free, freePos, -, rfl, rfl⟩ := hr.eq
  refine ⟨h.problem, h.set.of_rows_eq rfl rfl (by simp), h.rows_fit, fun k => ?_, h.heap,
    h.size_lambda, h.size_dlambda⟩
  rw [hcol]
  split_ifs
  · trivial
  · exact h.cols_fit k

theorem ColumnReleased.dualFeasible (hd : e.DualFeasible) (hr : ColumnReleased e e' j) : e'.DualFeasible := by
  refine hd.of_eq hr.rowAt ?_ ?_ <;> obtain ⟨set, bound, free, freePos, -, rfl, rfl⟩ := hr.eq <;> rfl

end Effects

end PolyProjection.Engine
