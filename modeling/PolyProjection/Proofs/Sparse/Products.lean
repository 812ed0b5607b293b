import Mathlib
import PolyProjection.Proofs.Sparse.Transpose
import PolyProjection.Proofs.Table
import PolyProjection.Sparse.Multiply

/-! Products with a well-formed matrix are the sums over its coefficients. A product that scatters by columns adds a
multiple of each column to the result; a product that gathers by columns has an inner product for each column. -/

namespace PolyProjection

set_option linter.unusedSectionVars false

section Vectors

variable {R : Type} [RingScalar R]

/-- A loop that adds a multiple of each entry to a vector. -/
theorem foldlM_add_table {l : List (ℕ × R)} {m : ℕ} (hl : (l.map Prod.fst).Nodup) (hm : ∀ e ∈ l, e.1 < m) (c : R)
    (y : ℕ → R) : l.foldlM (fun y e => adjust y e.1 (· + e.2 * c)) (table m y) =
      .ok (table m fun i => y i + lookupD l i * c) := by
  induction l generalizing y with
  | nil =>
      rw [List.foldlM_nil, pure_eq_ok_iff]
      exact table_congr fun i _ => by simp [lookupD]
  | cons e l ih =>
      rw [List.map_cons, List.nodup_cons] at hl
      rw [List.foldlM_cons, adjust_table _ (hm e List.mem_cons_self), ok_bind,
        ih hl.2 fun d hd => hm d (List.mem_cons_of_mem e hd)]
      refine congrArg Except.ok (table_congr fun i _ => ?_)
      rw [lookupD_cons]
      by_cases hi : i = e.1
      · rw [if_pos hi, hi, Function.update_self, lookupD_of_not_mem hl.1, zero_mul, add_zero]
      · rw [if_neg hi, Function.update_of_ne hi]

theorem scaled_eq_table (y : Array R) (t : R) : scaled y t = table y.size fun i => t * y.getD i 0 := by
  have hmap : ∀ f : R → R, y.map f = table y.size fun i => f (y.getD i 0) := fun f => by
    rw [← map_table, table_getD]
  unfold scaled
  by_cases h0 : t = 0
  · rw [if_pos ((RingScalar.beq_iff _ _).2 h0), hmap]
    exact table_congr fun i _ => by rw [h0, zero_mul]
  · rw [if_neg fun h => h0 ((RingScalar.beq_iff _ _).1 h)]
    by_cases h1 : t = 1
    · rw [bne, (RingScalar.beq_iff _ _).2 h1, if_neg (by simp), h1]
      simp only [one_mul, table_getD]
    · rw [bne, Bool.eq_false_iff.2 fun h => h1 ((RingScalar.beq_iff _ _).1 h), if_pos (by simp), hmap]
      exact table_congr fun i _ => mul_comm _ _

theorem Dense.dot_eq_sum {x y : Array R} {n : ℕ} (hx : x.size = n) (hy : y.size = n) :
    Dense.dot x y = ∑ i ∈ Finset.range n, x.getD i 0 * y.getD i 0 := by
  have hlist : ∀ z : Array R, z.size = n → z.toList = (List.range n).map fun i => z.getD i 0 := by
    rintro z rfl
    conv_lhs => rw [← table_getD z 0, table, Array.toList_map, Array.toList_range]
  rw [Dense.dot, ← Array.foldl_toList, Array.toList_zip, hlist x hx, hlist y hy, List.zip_map', List.foldl_map]
  exact foldl_range (fun k s => s = ∑ i ∈ Finset.range k, x.getD i 0 * y.getD i 0) rfl fun k _ s hs => by
    rw [hs, Finset.sum_range_succ]

end Vectors

namespace SparseMatrix

section Products

variable {R : Type} [RingScalar R] {a aT : SparseMatrix R} {x y z : Array R} (h : a.Formatted) (hT : IsTranspose a aT)

/-- Entry `i` of the product of the matrix and a vector over the columns. -/
def rowSum (a : SparseMatrix R) (x : Array R) (i : ℕ) : R :=
  ∑ j ∈ Finset.range a.ncols, a.valueAt i j * x.getD j 0

/-- Entry `j` of the product of the transpose and a vector over the rows. -/
def columnSum (a : SparseMatrix R) (z : Array R) (j : ℕ) : R :=
  ∑ i ∈ Finset.range a.nrows, a.valueAt i j * z.getD i 0

/-- The two products are adjoint to each other. -/
theorem sum_rowSum_mul (a : SparseMatrix R) (x z : Array R) :
    ∑ i ∈ Finset.range a.nrows, a.rowSum x i * z.getD i 0 =
      ∑ j ∈ Finset.range a.ncols, x.getD j 0 * a.columnSum z j :=
  calc ∑ i ∈ Finset.range a.nrows, a.rowSum x i * z.getD i 0
      = ∑ i ∈ Finset.range a.nrows, ∑ j ∈ Finset.range a.ncols, a.valueAt i j * x.getD j 0 * z.getD i 0 := by
        simp only [rowSum, Finset.sum_mul]
    _ = ∑ j ∈ Finset.range a.ncols, ∑ i ∈ Finset.range a.nrows, a.valueAt i j * x.getD j 0 * z.getD i 0 :=
        Finset.sum_comm
    _ = ∑ j ∈ Finset.range a.ncols, x.getD j 0 * a.columnSum z j := by
        apply Finset.sum_congr rfl
        intro j _
        rw [columnSum, Finset.mul_sum]
        exact Finset.sum_congr rfl fun i _ => by ring

include h

/-- A column of which a multiple is added to a vector. -/
theorem Formatted.foldlM_column {j : ℕ} (hj : j < a.ncols) (c : R) (u : ℕ → R) :
    (do (← a.entries j).foldlM (fun y (e : ℕ × R) => adjust y e.1 (· + e.2 * c)) (table a.nrows u)) =
      .ok (table a.nrows fun i => u i + a.valueAt i j * c) := by
  obtain ⟨col, hcol, hlist⟩ := h.entries_ok hj
  rw [hcol, ok_bind, ← Array.foldlM_toList, hlist]
  exact foldlM_add_table (h.nodup j) (h.row_lt j) c u

/-- The product that scatters by columns. -/
theorem Formatted.mulVec_ok (hx : x.size = a.ncols) (hy : y.size = a.nrows) (s t : R) :
    a.mulVec y x s t = .ok (table a.nrows fun i => s * a.rowSum x i + t * y.getD i 0) := by
  rw [mulVec, scaled_eq_table, hy]
  by_cases hs : s = 0
  · rw [if_pos ((RingScalar.beq_iff _ _).2 hs)]
    exact congrArg Except.ok (table_congr fun i _ => by rw [hs, zero_mul, zero_add])
  · rw [if_neg fun h => hs ((RingScalar.beq_iff _ _).1 h), require_of_true (by simpa using hx), ok_bind,
      require_of_true (by simp), ok_bind]
    -- after `k` columns each entry has the part of its sum that is over those columns
    obtain ⟨y', hloop, rfl⟩ := foldlM_range (n := a.ncols)
      (f := fun y j => do
        let ax := s * (← fetch x j)
        (← a.entries j).foldlM (fun y e => adjust y e.1 (· + e.2 * ax)) y)
      (fun k u => u = table a.nrows fun i => t * y.getD i 0 + ∑ j ∈ Finset.range k, a.valueAt i j * (s * x.getD j 0))
      (table_congr fun i _ => by rw [Finset.range_zero, Finset.sum_empty, add_zero]) (by
        rintro j hj u rfl
        refine ⟨_, by rw [fetch_getD (hx ▸ hj) 0, ok_bind, h.foldlM_column hj], table_congr fun i _ => ?_⟩
        rw [Finset.sum_range_succ, add_assoc])
    refine hloop.trans (congrArg Except.ok (table_congr fun i _ => ?_))
    calc t * y.getD i 0 + ∑ j ∈ Finset.range a.ncols, a.valueAt i j * (s * x.getD j 0)
        = t * y.getD i 0 + ∑ j ∈ Finset.range a.ncols, s * (a.valueAt i j * x.getD j 0) := by
          simp only [mul_left_comm s]
      _ = t * y.getD i 0 + s * a.rowSum x i := by rw [rowSum, Finset.mul_sum]
      _ = s * a.rowSum x i + t * y.getD i 0 := add_comm _ _

theorem Formatted.columnDot_eq (hz : z.size = a.nrows) {j : ℕ} (hj : j < a.ncols) :
    a.columnDot z j = .ok (a.columnSum z j) := by
  obtain ⟨c, hc, hlist⟩ := h.entries_ok hj
  rw [columnDot, hc, ok_bind, ← Array.foldlM_toList, hlist, foldlM_dot_getD fun e he => hz ▸ h.row_lt j e he,
    sum_lookupD (h.nodup j) (h.row_lt j) fun i => z.getD i 0]
  exact congrArg Except.ok (zero_add _)

/-- The product that gathers by columns. -/
theorem Formatted.mulVecTransposed_eq (hz : z.size = a.nrows) (hy : y.size = a.ncols) (s t : R) :
    a.mulVecTransposed y z s t = .ok (table a.ncols fun j => s * a.columnSum z j + t * y.getD j 0) := by
  rw [mulVecTransposed, scaled_eq_table, hy]
  by_cases hs : s = 0
  · rw [if_pos ((RingScalar.beq_iff _ _).2 hs)]
    exact congrArg Except.ok (table_congr fun i _ => by rw [hs, zero_mul, zero_add])
  · rw [if_neg fun h => hs ((RingScalar.beq_iff _ _).1 h), require_of_true (by simpa using hz), ok_bind,
      require_of_true (by simp), ok_bind]
    obtain ⟨y', hloop, rfl⟩ := foldlM_range (n := a.ncols)
      (f := fun y j => do
        let d ← a.columnDot z j
        adjust y j (· + s * d))
      (fun k u => u = table a.ncols fun j =>
        if j < k then s * a.columnSum z j + t * y.getD j 0 else t * y.getD j 0)
      (table_congr fun j _ => by rw [if_neg (Nat.not_lt_zero j)]) (by
        rintro j hj u rfl
        refine ⟨_, by rw [h.columnDot_eq hz hj, ok_bind, adjust_table _ hj], table_congr fun k _ => ?_⟩
        by_cases hk : k = j
        · rw [hk, Function.update_self, if_neg (lt_irrefl j), if_pos (Nat.lt_succ_self j), add_comm]
        · rw [Function.update_of_ne hk]
          simp only [Nat.lt_succ_iff_lt_or_eq, hk, or_false])
    exact hloop.trans (congrArg Except.ok (table_congr fun j hj => if_pos hj))

include hT

theorem IsTranspose.columnSum_eq : aT.columnSum = a.rowSum := by
  funext x i
  rw [columnSum, rowSum, hT.nrows]
  exact Finset.sum_congr rfl fun j _ => by rw [hT.valueAt_eq h]

theorem IsTranspose.rowSum_eq : aT.rowSum = a.columnSum := by
  funext z j
  rw [columnSum, rowSum, hT.ncols]
  exact Finset.sum_congr rfl fun i _ => by rw [hT.valueAt_eq h]

end Products

section Fields

variable {K : Type} [Field K] [LinearOrder K] [IsStrictOrderedRing K] {a aT : SparseMatrix K}

theorem columnSum_eq_sum_coeff (a : SparseMatrix K) (x : Array K) (j : Nat) :
    a.columnSum x j = ∑ i ∈ Finset.range a.nrows, a.coeff i j * coord x i := by
  simp only [columnSum, getD_eq_coord]
  rfl

/-- Adding the product with the transpose to a vector. -/
theorem Formatted.mulVecTransposed_ok (h : a.Formatted) {y x : Array K} (hx : x.size = a.nrows)
    (hy : y.size = a.ncols) : ∃ z, a.mulVecTransposed y x 1 1 = .ok z ∧ z.size = a.ncols ∧
      ∀ j < a.ncols, coord z j = coord y j + ∑ i ∈ Finset.range a.nrows, a.coeff i j * coord x i := by
  refine ⟨_, h.mulVecTransposed_eq hx hy 1 1, size_table _ _, fun j hj => ?_⟩
  rw [coord_table _ hj, one_mul, one_mul, columnSum_eq_sum_coeff, getD_eq_coord, add_comm]

variable (h : a.Formatted) (hT : IsTranspose a aT)

include h hT in
theorem IsTranspose.sum_row (i : Nat) (x : Nat → K) :
    ((aT.columnEntries i).map fun e => e.2 * x e.1).sum = ∑ j ∈ Finset.range a.ncols, a.coeff i j * x j := by
  rw [(hT.formatted h).sum_column i x, hT.nrows]
  exact Finset.sum_congr rfl fun j _ => by rw [hT.coeff_eq h]

include h hT in
/-- The inner product of a row, which is read off the transpose, and a vector over the columns. -/
theorem IsTranspose.foldlM_row_ok {x : Array K} (hx : x.size = a.ncols) {i : Nat} (hi : i < a.nrows) :
    ∃ c, aT.column i = .ok c ∧ c.foldlM (fun s e => return s + e.2 * (← fetch x e.1)) 0 =
      .ok (∑ j ∈ Finset.range a.ncols, a.coeff i j * coord x j) := by
  obtain ⟨c, hc, hlist⟩ := hT.fits.column_ok (j := i) (by rw [hT.ncols]; exact hi)
  refine ⟨c, hc, ?_⟩
  rw [← Array.foldlM_toList, hlist, foldlM_dot fun e he => by rw [hx]; exact hT.col_lt i e he, zero_add,
    hT.sum_row h i]

end Fields

end SparseMatrix

end PolyProjection
