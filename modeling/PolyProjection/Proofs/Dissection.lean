import Mathlib
import PolyProjection.Proofs.Descendants
import PolyProjection.Proofs.Problem
import PolyProjection.Proofs.Schedule

/-! Dissection. The rows that a column meets belong to its block and the ancestors of that. So a column meets rows of
a subtree only if it belongs to the subtree itself. -/

namespace PolyProjection

set_option linter.unusedSectionVars false

variable {K : Type} [Field K] [LinearOrder K] [IsStrictOrderedRing K]

namespace Problem

variable {p q : Problem K} {i j : Nat}

/-- Each row that a column meets belongs to the block of the column or to an ancestor of it. -/
def Dissected (p : Problem K) : Prop :=
  ∀ j, ∀ x ∈ p.a.columnEntries j, p.tree.Descends (p.tree.blockOfCol j) (p.tree.blockOfRow x.1)

/-- With one block there is nothing to meet outside of it. -/
theorem WellPosed.dissected_single (h : p.WellPosed) (htree : p.tree = .single p.nrows p.ncols) : p.Dissected := by
  intro j x hx
  have hj : j < p.ncols := by
    by_contra hge
    rw [SparseMatrix.columnEntries_of_le h.formatted.toFits (not_lt.1 hge)] at hx
    cases hx
  have hi : x.1 < p.nrows := h.formatted.row_lt j x hx
  have howner : ∀ n k, k < n → BlockTree.owner #[0, n] k = 0 := fun n k hk => by
    simp [BlockTree.owner, List.takeWhile, Nat.not_le.2 hk]
  rw [htree]
  show BlockTree.Descends _ (BlockTree.owner #[0, p.ncols] j) (BlockTree.owner #[0, p.nrows] x.1)
  rw [howner _ _ hj, howner _ _ hi]
  exact .refl

theorem dissected_of_withBlockTree {tree : BlockTree} (h : p.WellPosed) (ht : tree.Tested)
    (hok : p.withBlockTree tree = .ok (.ok q)) : q.Dissected := by
  have hq := eq_of_withBlockTree hok
  unfold withBlockTree at hok
  split_ifs at hok
  · simp at hok
  obtain ⟨js, hjs, hok⟩ := bind_eq_ok_iff.1 hok
  cases js with
  | cons j rest => simp at hok
  | nil =>
      intro j x hx
      have hj : j < p.ncols := by
        by_contra hge
        rw [hq, SparseMatrix.columnEntries_of_le h.formatted.toFits (not_lt.1 hge)] at hx
        cases hx
      have hyes := filterM_eq_ok_nil hjs j (List.mem_range.2 hj)
      simp only [bind_eq_ok_iff, pure_eq_ok_iff, Bool.not_eq_false'] at hyes
      obtain ⟨_, hyes, rfl⟩ := hyes
      unfold isDissected at hyes
      obtain ⟨c, hc, hyes⟩ := bind_eq_ok_iff.1 hyes
      rw [hq, SparseMatrix.columnEntries_of_ok hc] at hx
      rw [hq]
      exact (ht.isAncestorOrSelf_ok (allM_eq_ok_true hyes x hx)).1 rfl

theorem Accepted.dissected (h : p.Accepted) : p.Dissected := by
  cases h with
  | create h =>
      refine (wellPosed_of_create h).dissected_single ?_
      unfold Problem.create at h
      dsimp only at h
      split_ifs at h
      · simp at h
      split at h
      · simp at h
      split at h
      · simp at h
      · simp at h
      · simp at h
      · obtain ⟨aT, -, h⟩ := bind_eq_ok_iff.1 h
        rw [pure_eq_ok_iff, Except.ok.injEq] at h
        rw [← h]
        rfl
  | withBlockTree hp htree h =>
      exact dissected_of_withBlockTree hp.wellPosed (BlockTree.Accepted.tested ⟨_, _, _, htree⟩) h

theorem Accepted.job_stop (h : p.Accepted) {job : Job} (hjob : job.Covers p.tree) :
    job.rows.stop ≤ p.nrows ∧ job.cols.stop ≤ p.ncols := by
  obtain ⟨ht, hnrows, hncols⟩ := h.tree
  exact ⟨hnrows ▸ ht.tested.subtreeRows_stop hjob.1, hncols ▸ ht.tested.subtreeCols_stop hjob.2⟩

/-- The rows of a job are met by its own columns only. -/
theorem Accepted.mem_cols_of_mem_rows (h : p.Accepted) {job : Job} (hjob : job.Covers p.tree)
    (hmeets : i ∈ (p.a.columnEntries j).map Prod.fst) (hi : job.rows.start ≤ i ∧ i < job.rows.stop) :
    job.cols.start ≤ j ∧ j < job.cols.stop := by
  have ht := h.tree.1.tested
  obtain ⟨x, hx, rfl⟩ := List.mem_map.1 hmeets
  have hrow := ((ht.mem_subtreeRows hjob.1).2 x.1).1 hi
  exact ((ht.mem_subtreeCols hjob.2).2 j).2 ((h.dissected j x hx).trans hrow)

theorem Accepted.mem_cols_of_transpose (h : p.Accepted) {job : Job} (hjob : job.Covers p.tree)
    (hmeets : j ∈ (p.aT.columnEntries i).map Prod.fst) (hi : job.rows.start ≤ i ∧ i < job.rows.stop) :
    job.cols.start ≤ j ∧ j < job.cols.stop := by
  obtain ⟨x, hx, rfl⟩ := List.mem_map.1 hmeets
  exact h.mem_cols_of_mem_rows hjob
    (List.mem_map.2 ⟨(i, x.2), (h.wellPosed.transpose.mem_iff h.wellPosed.formatted).1 hx, rfl⟩) hi

/-- The other rows that a column of a job meets belong to ancestors of its block. -/
theorem Accepted.descends_of_meets (h : p.Accepted) {job : Job} (hjob : job.Covers p.tree)
    (hj : job.cols.start ≤ j ∧ j < job.cols.stop) (hmeets : p.a.coeff i j ≠ 0)
    (hi : ¬(job.rows.start ≤ i ∧ i < job.rows.stop)) :
    p.tree.Descends job.block (p.tree.blockOfRow i) ∧ p.tree.blockOfRow i ≠ job.block := by
  have ht := h.tree.1.tested
  have hmem : i ∈ (p.a.columnEntries j).map Prod.fst := by
    by_contra hnot
    exact hmeets (SparseMatrix.coeff_of_not_mem hnot)
  obtain ⟨x, hx, rfl⟩ := List.mem_map.1 hmem
  have hrow := h.dissected j x hx
  have hcol := ((ht.mem_subtreeCols hjob.2).2 j).1 hj
  have hout : ¬p.tree.Descends (p.tree.blockOfRow x.1) job.block := fun hdesc =>
    hi (((ht.mem_subtreeRows hjob.1).2 x.1).2 hdesc)
  rcases le_total (p.tree.blockOfRow x.1) job.block with hle | hle
  · exact absurd (ht.descends_of_le hrow hcol hle) hout
  · exact ⟨ht.descends_of_le hcol hrow hle, fun heq => hout (heq ▸ .refl)⟩

theorem Accepted.start_le_of_meets (h : p.Accepted) {job : Job} (hjob : job.Covers p.tree)
    (hj : job.cols.start ≤ j ∧ j < job.cols.stop) (hmeets : p.a.coeff i j ≠ 0) : job.rows.start ≤ i := by
  by_cases hi : job.rows.start ≤ i ∧ i < job.rows.stop
  · exact hi.1
  · exact h.tree.1.tested.start_le_of_descends hjob.1 (h.descends_of_meets hjob hj hmeets hi).1

theorem Accepted.coeff_eq_zero (h : p.Accepted) {job : Job} (hjob : job.Covers p.tree)
    (hi : job.rows.start ≤ i ∧ i < job.rows.stop) (hj : ¬(job.cols.start ≤ j ∧ j < job.cols.stop)) :
    p.a.coeff i j = 0 := by
  by_contra hne
  refine hj (h.mem_cols_of_mem_rows hjob ?_ hi)
  by_contra hnot
  exact hne (SparseMatrix.coeff_of_not_mem hnot)

end Problem

end PolyProjection
