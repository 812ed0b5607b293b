import Mathlib
import PolyProjection.Proofs.Factor.Pattern

/-! The symbolic analysis is exact. The least family of columns that has the coupled rows and its own fill is what the
columns of a new factor have room for, no row more and no row less, and the numbers of rows that the walks in the
elimination tree count are the sizes of these columns. -/

namespace PolyProjection

variable {α : Type}

namespace FillPattern

/-- Rows below the diagonal for each column, among them the coupled rows, and of two rows of one column the later one
in the column of the earlier one. -/
structure IsFillFamily (a : SparseMatrix α) (rows : ℕ → Set ℕ) : Prop where
  below : ∀ j, ∀ i ∈ rows j, j < i ∧ i < a.nrows
  coupled : ∀ i j, j < i → a.Coupled j i → i ∈ rows j
  fill : ∀ i j k, i ∈ rows j → k ∈ rows j → i < k → k ∈ rows i

variable {a : SparseMatrix α} {rows : ℕ → Set ℕ}

theorem IsFillFamily.of_filled (h : IsFillFamily a rows) {i j : ℕ} (hij : Filled a i j) : i ∈ rows j := by
  induction hij with
  | coupled hc hlt => exact h.coupled _ _ hlt hc
  | fill _ _ hlt ihi ihk => exact h.fill _ _ _ ihi ihk hlt

/-- The filled entries are the least family. -/
theorem isLeast_filled (ha : a.Formatted) :
    IsLeast {rows : ℕ → Set ℕ | IsFillFamily a rows} fun j => {i | Filled a i j} := by
  refine ⟨⟨fun j i hij => ⟨hij.lt, hij.row_lt ha⟩, fun i j hlt hc => .coupled hc hlt,
    fun i j k hi hk hlt => .fill hi hk hlt⟩, fun rows hrows j i hij => ?_⟩
  exact hrows.of_filled hij

theorem ncard_filled (ha : a.Formatted) (j : ℕ) : {i | Filled a i j}.ncard = ((fill a ha).column j).length := by
  have hset : {i | Filled a i j} = ((fill a ha).column j).toFinset := by
    ext i
    rw [Set.mem_ofPred_eq, Finset.mem_coe, List.mem_toFinset, Fill.mem_column, fill_has_iff]
  rw [hset, Set.ncard_coe_finset, List.toFinset_card_of_nodup (((fill a ha).column_ascending j).imp Nat.ne_of_lt)]

end FillPattern

namespace LdlFactor

open FillPattern

variable [Scalar α] {a aT : SparseMatrix α}

/-- **The symbolic analysis is exact.** For a matrix that passes the test of its format, a new factor has the least fill
family as its pattern: column `j` lists the rows of the family in ascending order, all of them inactive, and its
capacity is their number; row `k` lists the columns that have it in ascending order. Every parent in the elimination
tree is a later row of the matrix and the walks all end inside the tables: an index out of range or a walk without
end would be a fault. The rows that the walks count for each column are as many as it has. -/
theorem ofMatrix_least_fill (hcheck : a.check = .ok ()) (hT : a.transpose = .ok aT) :
    ∃ rows : ℕ → Set ℕ, IsLeast {rows | IsFillFamily a rows} rows ∧
      ∃ (f : LdlFactor α) (coupledRows : List (List ℕ)) (parent : Array (Option ℕ)) (counts : Array ℕ),
        (List.range a.nrows).mapM (coupled a aT) = .ok coupledRows ∧
        eliminationTree coupledRows.toArray = .ok (parent, counts) ∧
        (parent.size = a.nrows ∧ ∀ i p, parent[i]? = some (some p) → i < p ∧ p < a.nrows) ∧
        (counts.size = a.nrows ∧ ∀ j n, counts[j]? = some n → n = (rows j).ncard) ∧
        rowPatterns a aT = .ok (f.rowPattern, counts) ∧
        ofMatrix a aT = .ok (.ok f) ∧
        (f.columns.size = a.nrows ∧ ∀ j c, f.columns[j]? = some c →
          c.live = [] ∧ c.dead.Pairwise (· < ·) ∧ (∀ i, i ∈ c.dead ↔ i ∈ rows j) ∧ c.capacity = (rows j).ncard) ∧
        (f.rowPattern.size = a.nrows ∧ ∀ k row, f.rowPattern[k]? = some row →
          row.Pairwise (· < ·) ∧ ∀ j, j ∈ row ↔ k ∈ rows j) := by
  have ha := SparseMatrix.formatted_of_check hcheck
  have hT := ha.isTranspose_of_ok hT
  obtain ⟨coupledRows, parent, hcoupled, hparent, htree, -⟩ := walks_ok ha hT
  refine ⟨_, isLeast_filled ha, _, _, table a.nrows parent, _, hcoupled,
    by rw [toArray_map_range]; exact hparent, ⟨size_table _ _, fun i p hp => ?_⟩, ⟨size_table _ _, fun j n hn => ?_⟩,
    rowPatterns_ok ha hT, ofMatrix_ok hcheck hT, ⟨size_table _ _, fun j c hc => ?_⟩,
    ⟨size_table _ _, fun k row hrow => ?_⟩⟩
  · rw [getElem?_table] at hp
    split_ifs at hp
    obtain ⟨hlt, -, hfilled⟩ := htree i p (Option.some.inj hp)
    exact ⟨hlt, hfilled.row_lt ha⟩
  · rw [getElem?_table] at hn
    split_ifs at hn
    rw [← Option.some.inj hn, ncard_filled ha]
  · rw [Fill.factor, getElem?_table] at hc
    split_ifs at hc
    obtain rfl := Option.some.inj hc
    simp only [FactorColumn.ofRows, FactorColumn.capacity, Bool.not_false, List.filter_true, List.filter_false,
      List.map_nil, List.length_nil, Nat.zero_add]
    exact ⟨trivial, (fill a ha).column_ascending j, fun i => by rw [Fill.mem_column, fill_has_iff, Set.mem_ofPred_eq],
      (ncard_filled ha j).symm⟩
  · rw [Fill.factor, getElem?_table] at hrow
    split_ifs at hrow
    rw [← Option.some.inj hrow]
    exact ⟨(fill a ha).row_ascending k, fun j => by rw [Fill.mem_row, fill_has_iff, Set.mem_ofPred_eq]⟩

/-- Three rows of which the last two are coupled with the first one only. -/
def fork : SparseMatrix ℚ :=
  ⟨3, 2, #[0, 2, 4], #[0, 1, 0, 2], #[1, 1, 1, 1]⟩

theorem ofMatrix_least_fill_fork : ∃ rows : ℕ → Set ℕ, IsLeast {rows | IsFillFamily fork rows} rows ∧ 2 ∈ rows 1 ∧
    ∃ aT f, fork.transpose = .ok aT ∧ ofMatrix fork aT = .ok (.ok f) ∧ f.rowPattern[2]? = some [0, 1] := by
  have hT : fork.transpose = .ok ⟨2, 3, #[0, 2, 3, 4], #[0, 1, 0, 1], #[1, 1, 1, 1]⟩ := by decide +kernel
  obtain ⟨rows, hrows, f, -, -, -, -, -, -, -, -, hf, -, hsize, hpattern⟩ :=
    ofMatrix_least_fill (a := fork) (by decide +kernel) hT
  have h01 : 1 ∈ rows 0 := hrows.1.coupled 1 0 (by decide) ⟨0, by decide +kernel, by decide +kernel⟩
  have h02 : 2 ∈ rows 0 := hrows.1.coupled 2 0 (by decide) ⟨1, by decide +kernel, by decide +kernel⟩
  have h12 : 2 ∈ rows 1 := hrows.1.fill 1 0 2 h01 h02 (by decide)
  obtain ⟨hascending, hmem⟩ := hpattern 2 _ (Array.getElem?_eq_getElem (hsize.symm ▸ by decide))
  refine ⟨rows, hrows, h12, _, f, hT, hf, ?_⟩
  rw [Array.getElem?_eq_getElem (hsize.symm ▸ by decide)]
  refine congrArg some (eq_of_ascending hascending (by decide) fun j => ?_)
  rw [hmem]
  constructor
  · intro hj
    have hlt := (hrows.1.below j 2 hj).1
    interval_cases j <;> decide
  · intro hj
    rcases List.mem_pair.1 hj with rfl | rfl
    · exact h02
    · exact h12

end LdlFactor

end PolyProjection
