import Mathlib
import PolyProjection.Engine.Run
import PolyProjection.Proofs.Engine.Basic

/-! The start of a run from its multipliers. The increments are folded into them, every column gets its base
value, and the right-hand side of a row is what its bound is away from the row at the base values. -/

namespace PolyProjection.Engine

set_option linter.unusedSectionVars false

variable {K : Type} [Field K] [LinearOrder K] [IsStrictOrderedRing K]

/-- The engine with its vectors computed anew. -/
structure Rebased (e e' : Engine K) : Prop where
  form : e' = { e with lambda := e'.lambda, dlambda := e'.dlambda, work := e'.work }
  size_lambda : e'.lambda.size = e.lambda.size
  size_dlambda : e'.dlambda.size = e.dlambda.size
  lambda : ∀ i, coord e'.lambda i =
    if (e.set.rowAt i).isActive then coord e.lambda i + coord e.dlambda i else 0
  dlambda : ∀ i, coord e'.dlambda i = 0
  size_reference : e'.work.reference.size = e.problem.ncols
  reference : ∀ j < e.problem.ncols, coord e'.work.reference j =
    (e.columnBoundAt j).getD (e.problem.columnValue j (coord e'.lambda))
  c : ∀ j < e.problem.ncols, coord e'.work.c j =
    e.problem.columnValue j (coord e'.lambda) - coord e'.work.reference j
  cold : ∀ j < e.problem.ncols, coord e'.work.cold j = coord e'.work.c j
  rhs : ∀ i < e.problem.nrows, coord e'.work.rhs i = if (e.set.rowAt i).isActive then
    e.boundAt i - e.problem.rowValue i (coord e'.work.reference) else 0

variable {e e' : Engine K}

theorem Regular.of_foldIncrements (h : e.Regular) (hok : e.foldIncrements = .ok e') :
    ∃ lambda, e' = { e with lambda := lambda, dlambda := e.dlambda.map fun _ => 0 } ∧
      lambda.size = e.lambda.size ∧ ∀ i, coord lambda i =
        if (e.set.rowAt i).isActive then coord e.lambda i + coord e.dlambda i else 0 := by
  unfold foldIncrements at hok
  simp only [bind_eq_ok_iff, pure_eq_ok_iff] at hok
  obtain ⟨lambda, hfold, rfl⟩ := hok
  obtain ⟨hsize, hcoord⟩ := foldlM_pointwise
    (fun i v => if (e.set.rowAt i).isActive then v + coord e.dlambda i else 0) hfold List.nodup_range (by
      intro i hi u u' _ hstep
      rw [h.set.isRowActive_eq (List.mem_range.1 hi), ok_bind] at hstep
      split_ifs at hstep with hact
      · simp only [bind_eq_ok_iff, fetch_eq_ok_coord_iff, adjust_eq_ok_iff] at hstep
        obtain ⟨_, ⟨-, rfl⟩, hlt, rfl⟩ := hstep
        simp only [if_pos hact]
        exact coord_set_step hlt
      · rw [store_eq_ok_iff] at hstep
        obtain ⟨hlt, rfl⟩ := hstep
        simp only [if_neg hact]
        exact coord_set_step hlt)
  refine ⟨lambda, rfl, hsize, fun i => ?_⟩
  rw [hcoord]
  by_cases hi : i < e.problem.nrows
  · rw [if_pos (List.mem_range.2 hi)]
  · have hdrop : ¬(e.set.rowAt i).isActive = true := fun hact => hi (h.row_lt hact)
    rw [if_neg (fun hmem => hi (List.mem_range.1 hmem)), if_neg hdrop]
    exact coord_of_size_le (by rw [h.size_lambda]; exact not_lt.1 hi)

/-- The base value of a column, and how far it is from the unbounded one. -/
theorem Regular.of_rebaseColumn (h : e.Regular) {w w' : Workspace K} {j : Nat} (hj : j < e.problem.ncols)
    (hok : e.rebaseColumn w j = .ok w') : j < w.reference.size ∧ j < w.c.size ∧ j < w.cold.size ∧ ∃ pa,
      w' = { w with
        reference := w.reference.setIfInBounds j ((e.columnBoundAt j).getD (coord w.reference j))
        c := w.c.setIfInBounds j (coord w.reference j - (e.columnBoundAt j).getD (coord w.reference j))
        cold := w.cold.setIfInBounds j (coord w.reference j - (e.columnBoundAt j).getD (coord w.reference j))
        pa := pa } := by
  unfold rebaseColumn at hok
  rw [bind_eq_ok_iff] at hok
  obtain ⟨z, hz, hok⟩ := hok
  obtain ⟨hlt, rfl⟩ := fetch_eq_ok_coord_iff.1 hz
  rw [h.columnBound?_ok hj, ok_bind] at hok
  cases hb : e.columnBoundAt j with
  | none =>
      simp only [hb, pure_bind_ok, bind_eq_ok_iff, pure_eq_ok_iff, store_eq_ok_iff] at hok
      obtain ⟨_, ⟨-, rfl⟩, _, ⟨hc, rfl⟩, _, ⟨hcold, rfl⟩, pa, -, rfl⟩ := hok
      refine ⟨hlt, hc, hcold, pa, ?_⟩
      rw [Option.getD_none, sub_self]
  | some b =>
      simp only [hb, pure_bind_ok, bind_eq_ok_iff, pure_eq_ok_iff, store_eq_ok_iff] at hok
      obtain ⟨_, ⟨-, rfl⟩, _, ⟨hc, rfl⟩, _, ⟨hcold, rfl⟩, pa, -, rfl⟩ := hok
      exact ⟨hlt, hc, hcold, pa, rfl⟩

theorem Regular.of_rebaseColumns (h : e.Regular) {w w' : Workspace K} (hsize : w.reference.size = e.problem.ncols)
    (hok : (List.range e.problem.ncols).foldlM e.rebaseColumn w = .ok w') :
    w'.rhs = w.rhs ∧ w'.reference.size = e.problem.ncols ∧ ∀ j < e.problem.ncols,
      coord w'.reference j = (e.columnBoundAt j).getD (coord w.reference j) ∧
      coord w'.c j = coord w.reference j - coord w'.reference j ∧ coord w'.cold j = coord w'.c j := by
  have hloop := foldlM_reaches (fun done (u : Workspace K) => u.rhs = w.rhs ∧ u.reference.size = e.problem.ncols ∧
    (∀ j, j ∉ done → coord u.reference j = coord w.reference j) ∧
    ∀ j ∈ done, coord u.reference j = (e.columnBoundAt j).getD (coord w.reference j) ∧
      coord u.c j = coord w.reference j - coord u.reference j ∧ coord u.cold j = coord u.c j) hok
    ⟨rfl, hsize, fun _ _ => rfl, by simp⟩ (by
      rintro done j rest u u' hdone ⟨hrhs, hsize', hnew, hold⟩ hstep
      have hj : j < e.problem.ncols := by
        rw [← List.mem_range, hdone]
        simp
      have hjnew : j ∉ done := fun hmem =>
        List.disjoint_of_nodup_append (hdone ▸ List.nodup_range) hmem List.mem_cons_self
      obtain ⟨hlt, hc, hcold, pa, rfl⟩ := h.of_rebaseColumn hj hstep
      refine ⟨hrhs, by simp [hsize'], fun i hi => ?_, fun i hi => ?_⟩
      · rw [List.mem_append, List.mem_singleton, not_or] at hi
        rw [coord_setIfInBounds, if_neg fun hij => hi.2 hij.1]
        exact hnew i hi.1
      · rw [coord_setIfInBounds, coord_setIfInBounds, coord_setIfInBounds]
        by_cases hij : i = j
        · subst hij
          rw [if_pos ⟨rfl, hlt⟩, if_pos ⟨rfl, hc⟩, if_pos ⟨rfl, hcold⟩, hnew i hjnew]
          exact ⟨rfl, rfl, rfl⟩
        · rw [if_neg fun hij' => hij hij'.1, if_neg fun hij' => hij hij'.1, if_neg fun hij' => hij hij'.1]
          refine hold i ?_
          rcases List.mem_append.1 hi with hi | hi
          · exact hi
          · exact absurd (List.mem_singleton.1 hi) hij)
  exact ⟨hloop.1, hloop.2.1, fun j hj => hloop.2.2.2 j (List.mem_range.2 hj)⟩

theorem Regular.of_rhsEntry (h : e.Regular) {reference : Array K} (hsize : reference.size = e.problem.ncols)
    {i : Nat} (hi : i < e.problem.nrows) : e.rhsEntry reference i = .ok (if (e.set.rowAt i).isActive then
      e.boundAt i - e.problem.rowValue i (coord reference) else 0) := by
  rw [rhsEntry, h.set.isRowActive_eq hi, ok_bind]
  split_ifs with hact
  · rw [h.rowBound_ok hi, ok_bind, h.problem.rowDot_ok hsize hi]
    rfl
  · rfl

theorem Regular.of_rebase (h : e.Regular) (hok : e.rebase = .ok e') : Rebased e e' := by
  unfold rebase at hok
  rw [bind_eq_ok_iff] at hok
  obtain ⟨e₁, hfold, hok⟩ := hok
  obtain ⟨lambda, rfl, hsize, hlambda⟩ := h.of_foldIncrements hfold
  have h₁ : Regular { e with lambda := lambda, dlambda := e.dlambda.map fun _ => 0 } :=
    ⟨h.problem, h.set, h.rows_fit, h.cols_fit, h.heap, hsize.trans h.size_lambda, by simp [h.size_dlambda]⟩
  obtain ⟨z, hz, hzsize, hzcoord⟩ := h.problem.shifted_ok (hsize.trans h.size_lambda)
  simp only [hz, ok_bind, bind_eq_ok_iff, pure_eq_ok_iff] at hok
  obtain ⟨w, hcols, rhs, hrows, rfl⟩ := hok
  obtain ⟨hwrhs, hwsize, hw⟩ := h₁.of_rebaseColumns hzsize hcols
  obtain ⟨-, hrhs⟩ := foldlM_pointwise (fun i _ => if (e.set.rowAt i).isActive then
    e.boundAt i - e.problem.rowValue i (coord w.reference) else 0) hrows List.nodup_range (by
      intro i hi u u' _ hstep
      rw [h₁.of_rhsEntry hwsize (List.mem_range.1 hi), ok_bind, store_eq_ok_iff] at hstep
      obtain ⟨hlt, rfl⟩ := hstep
      exact coord_set_step hlt)
  refine ⟨rfl, hsize, by simp, hlambda, fun i => coord_map_zero _ i, hwsize, fun j hj => ?_, fun j hj => ?_,
    fun j hj => (hw j hj).2.2, fun i hi => ?_⟩
  · rw [(hw j hj).1, hzcoord j hj]
    rfl
  · rw [(hw j hj).2.1, hzcoord j hj]
  · rw [hrhs, if_pos (List.mem_range.2 hi)]

theorem Rebased.problem_eq (hr : Rebased e e') : e'.problem = e.problem := by
  rw [hr.form]

theorem Rebased.settings_eq (hr : Rebased e e') : e'.settings = e.settings := by
  rw [hr.form]

theorem Rebased.set_eq (hr : Rebased e e') : e'.set = e.set := by
  rw [hr.form]

theorem Rebased.regular (hr : Rebased e e') (h : e.Regular) : e'.Regular := by
  have hl := hr.size_lambda.trans h.size_lambda
  have hd := hr.size_dlambda.trans h.size_dlambda
  rw [hr.form]
  exact ⟨h.problem, h.set, h.rows_fit, h.cols_fit, h.heap, hl, hd⟩

/-- The multipliers of active rows with their increments are the same as before, and dropped rows have none. -/
theorem Rebased.dualFeasible (hr : Rebased e e')
    (hside : ∀ i, (e.set.rowAt i).isActive = true → (e.set.rowAt i).Admits (coord e.lambda i + coord e.dlambda i)) :
    e'.DualFeasible where
  dropped := fun i hi => by
    rw [hr.set_eq] at hi
    rw [hr.lambda, hr.dlambda, hi]
    exact ⟨rfl, rfl⟩
  on_side := fun i => by
    rw [hr.set_eq, hr.lambda, hr.dlambda, add_zero]
    split_ifs with hact
    · exact hside i hact
    · exact RowStatus.admits_zero _

end PolyProjection.Engine
