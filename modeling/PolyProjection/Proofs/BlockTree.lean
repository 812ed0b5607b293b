import PolyProjection.BlockTree
import PolyProjection.Proofs.Checked
import PolyProjection.Proofs.Sorted

/-! Accepted trees of blocks. The blocks have successive ranges of the rows and of the columns. -/

namespace PolyProjection

namespace BlockTree

/-- A tree that was accepted. -/
def Accepted (t : BlockTree) : Prop :=
  ∃ parent rowStart colStart, ofParents parent rowStart colStart = .ok t

/-- The last block is a root, and the others come before their parents. -/
structure Numbered (t : BlockTree) : Prop where
  root : t.parent[t.size - 1]?.join = none
  parent_lt : ∀ k < t.size - 1, ∃ p, t.parent[k]? = some (some p) ∧ k < p ∧ p < t.size

/-- What was tested before a tree was accepted. -/
structure Tested (t : BlockTree) : Prop extends Numbered t where
  size_pos : 0 < t.size
  size_rowStart : t.rowStart.size = t.size + 1
  size_colStart : t.colStart.size = t.size + 1
  rowStart_zero : t.rowStart[0]? = some 0
  colStart_zero : t.colStart[0]? = some 0
  rowStart_chain : t.rowStart.toList.IsChain (· ≤ ·)
  colStart_chain : t.colStart.toList.IsChain (· ≤ ·)
  kids_eq : t.kids = kidsOf t.parent
  depth_eq : t.depth = depths t.parent
  leftDesc_eq : t.leftDesc = (extents t.parent).1
  contiguous : ∀ k < t.size, k + 1 - t.leftDesc.getD k 0 = (extents t.parent).2.getD k 0

theorem startsAreValid_iff {starts : Array Nat} :
    startsAreValid starts = true ↔ starts[0]? = some 0 ∧ starts.toList.IsChain (· ≤ ·) := by
  rw [startsAreValid, Bool.and_eq_true, beq_iff_eq, isNondecreasing_iff]

theorem parentError?_eq_none_iff {n k : Nat} {parent : Array (Option Nat)} :
    parentError? n parent k = none ↔ ∃ p, parent[k]? = some (some p) ∧ k < p ∧ p < n := by
  unfold parentError?
  cases hp : parent[k]?.join with
  | none =>
      refine ⟨nofun, ?_⟩
      rintro ⟨p, hk, -⟩
      rw [hk] at hp
      cases hp
  | some p =>
      rw [Option.join_eq_some_iff] at hp
      simp [hp]

/-- A tree is accepted if it passes the tests, with the data that its parents lead to. -/
theorem ofParents_eq_ok_iff {t : BlockTree} {parent : Array (Option Nat)} {rowStart colStart : Array Nat} :
    ofParents parent rowStart colStart = .ok t ↔
      t.Tested ∧ t.parent = parent ∧ t.rowStart = rowStart ∧ t.colStart = colStart := by
  unfold ofParents
  dsimp only
  constructor
  · intro hok
    split_ifs at hok with hsizes hstarts hroot
    simp only [not_or, not_not] at hsizes
    simp only [Bool.or_eq_true, Bool.not_eq_true', not_or, Bool.not_eq_false] at hstarts
    split at hok
    · cases hok
    · rename_i hparents
      split at hok
      · cases hok
      · rename_i hcontiguous
        rw [Except.ok.injEq] at hok
        subst hok
        obtain ⟨hrow, hcol⟩ := hstarts
        rw [startsAreValid_iff] at hrow hcol
        refine ⟨⟨⟨?_, fun k hk => ?_⟩, Nat.pos_of_ne_zero hsizes.1, hsizes.2.1, hsizes.2.2, hrow.1, hcol.1, hrow.2,
          hcol.2, rfl, rfl, rfl, fun k hk => ?_⟩, rfl, rfl, rfl⟩
        · show parent[parent.size - 1]?.join = none
          simpa using hroot
        · exact parentError?_eq_none_iff.1 (List.findSome?_eq_none_iff.1 hparents k (List.mem_range.2 hk))
        · simpa using List.find?_eq_none.1 hcontiguous k (List.mem_range.2 hk)
  · rintro ⟨h, rfl, rfl, rfl⟩
    have hsize : t.parent.size = t.size := rfl
    have hparents : (List.range (t.size - 1)).findSome? (parentError? t.size t.parent) = none :=
      List.findSome?_eq_none_iff.2 fun k hk => parentError?_eq_none_iff.2 (h.parent_lt k (List.mem_range.1 hk))
    have hcontiguous : ((List.range t.size).find? fun k =>
        k + 1 - (extents t.parent).1.getD k 0 ≠ (extents t.parent).2.getD k 0) = none :=
      List.find?_eq_none.2 fun k hk => by simpa [h.leftDesc_eq] using h.contiguous k (List.mem_range.1 hk)
    rw [hsize, if_neg, if_neg, if_neg, hparents]
    · dsimp only
      rw [hcontiguous, ← h.kids_eq, ← h.depth_eq, ← h.leftDesc_eq]
    · simp [h.root]
    · simp [startsAreValid_iff.2 ⟨h.rowStart_zero, h.rowStart_chain⟩,
        startsAreValid_iff.2 ⟨h.colStart_zero, h.colStart_chain⟩]
    · have hpos := h.size_pos
      simp [h.size_rowStart, h.size_colStart, Nat.pos_iff_ne_zero.1 hpos]

theorem Accepted.tested {t : BlockTree} (h : t.Accepted) : t.Tested := by
  obtain ⟨parent, rowStart, colStart, hok⟩ := h
  exact (ofParents_eq_ok_iff.1 hok).1

theorem accepted_single (m n : Nat) : (single m n).Accepted :=
  ⟨_, _, _, ofParents_single m n⟩

/-- Successive starts do not decrease. -/
theorem start_le_of_chain {starts : Array Nat} (h : starts.toList.IsChain (· ≤ ·)) {a b u v : Nat} (hab : a ≤ b)
    (hu : starts[a]? = some u) (hv : starts[b]? = some v) : u ≤ v := by
  rcases Nat.eq_or_lt_of_le hab with rfl | hlt
  · rw [hu, Option.some.injEq] at hv
    exact hv.le
  · obtain ⟨ha, rfl⟩ := Array.getElem?_eq_some_iff.1 hu
    obtain ⟨hb, rfl⟩ := Array.getElem?_eq_some_iff.1 hv
    have hpair := List.isChain_iff_pairwise.1 h
    exact List.pairwise_iff_getElem.1 hpair a b (by simpa using ha) (by simpa using hb) hlt

/-- The starts of `n` successive ranges, with the end of the last one. -/
structure AreStarts (n : Nat) (starts : Array Nat) : Prop where
  size_eq : starts.size = n + 1
  zero : starts[0]? = some 0
  chain : starts.toList.IsChain (· ≤ ·)

theorem AreStarts.last {n : Nat} {starts : Array Nat} (h : AreStarts n starts) :
    starts[n]? = some (starts.getD n 0) := by
  have hlt : n < starts.size := by
    rw [h.size_eq]
    exact Nat.lt_succ_self _
  rw [Array.getD_eq_getD_getElem?, Array.getElem?_eq_getElem hlt, Option.getD_some]

theorem AreStarts.le_last {n : Nat} {starts : Array Nat} (h : AreStarts n starts) {b v : Nat}
    (hv : starts[b]? = some v) : v ≤ starts.getD n 0 := by
  have hb := (Array.getElem?_eq_some_iff.1 hv).1
  rw [h.size_eq] at hb
  exact start_le_of_chain h.chain (Nat.le_of_lt_succ hb) hv h.last

theorem Tested.areStarts_row {t : BlockTree} (h : t.Tested) : AreStarts t.size t.rowStart :=
  ⟨h.size_rowStart, h.rowStart_zero, h.rowStart_chain⟩

theorem Tested.areStarts_col {t : BlockTree} (h : t.Tested) : AreStarts t.size t.colStart :=
  ⟨h.size_colStart, h.colStart_zero, h.colStart_chain⟩

theorem Tested.rowStart_le {t : BlockTree} (h : t.Tested) {b v : Nat} (hv : t.rowStart[b]? = some v) :
    v ≤ t.nrows :=
  h.areStarts_row.le_last hv

theorem Tested.colStart_le {t : BlockTree} (h : t.Tested) {b v : Nat} (hv : t.colStart[b]? = some v) :
    v ≤ t.ncols :=
  h.areStarts_col.le_last hv

/-- The rows of a subtree end inside the matrix. -/
theorem Tested.subtreeRows_stop {t : BlockTree} (h : t.Tested) {k : Nat} {range : IndexRange}
    (hok : t.subtreeRows k = .ok range) : range.stop ≤ t.nrows := by
  unfold subtreeRows rangeBetween at hok
  simp only [bind_eq_ok_iff, pure_eq_ok_iff] at hok
  obtain ⟨_, -, _, -, v, hv, rfl⟩ := hok
  exact h.rowStart_le (fetch_eq_ok_iff.1 hv)

theorem Tested.subtreeCols_stop {t : BlockTree} (h : t.Tested) {k : Nat} {range : IndexRange}
    (hok : t.subtreeCols k = .ok range) : range.stop ≤ t.ncols := by
  unfold subtreeCols rangeBetween at hok
  simp only [bind_eq_ok_iff, pure_eq_ok_iff] at hok
  obtain ⟨_, -, _, -, v, hv, rfl⟩ := hok
  exact h.colStart_le (fetch_eq_ok_iff.1 hv)

end BlockTree

end PolyProjection
