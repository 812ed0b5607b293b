import Mathlib
import PolyProjection.Engine.Run
import PolyProjection.Proofs.Sparse.Involution
import PolyProjection.Proofs.Sparse.Products

/-! The ways to apply a matrix agree. The product that scatters by the columns of the matrix is the one that gathers by
those of the stored transpose, and the inner products with single rows, which are read off the transpose, are its
entries: those that a problem answers with, and those in a new right-hand side. -/

namespace PolyProjection

variable {R : Type} [RingScalar R]

namespace Engine

variable {e e' : Engine R}

/-- A row of a new right-hand side. -/
theorem rhs_of_rebase (hok : e.rebase = .ok e') {i : ℕ} (hi : i < e.problem.nrows) :
    ∃ v, e.rhsEntry e'.work.reference i = .ok v ∧ e'.work.rhs[i]? = some v := by
  unfold rebase at hok
  rw [bind_eq_ok_iff] at hok
  obtain ⟨e₁, hfold, hok⟩ := hok
  unfold foldIncrements at hfold
  simp only [bind_eq_ok_iff, pure_eq_ok_iff] at hfold
  obtain ⟨lambda, -, rfl⟩ := hfold
  simp only [bind_eq_ok_iff, pure_eq_ok_iff] at hok
  obtain ⟨z, -, w, -, rhs, hrows, rfl⟩ := hok
  -- each row is stored once, and what is stored later leaves it as it is
  have hloop := foldlM_reaches (fun done (u : Array R) => ∀ k ∈ done, ∃ v, e.rhsEntry w.reference k = .ok v ∧
    u[k]? = some v) hrows (by simp) (by
      rintro done j rest u u' - hu hstep
      rw [bind_eq_ok_iff] at hstep
      obtain ⟨v, hv, hstore⟩ := hstep
      obtain ⟨hlt, rfl⟩ := store_eq_ok_iff.1 hstore
      intro k hk
      rw [Array.getElem?_setIfInBounds]
      by_cases hkj : j = k
      · subst hkj
        exact ⟨v, hv, by rw [if_pos rfl, if_pos hlt]⟩
      · rw [if_neg hkj]
        refine hu k ?_
        rcases List.mem_append.1 hk with hk | hk
        · exact hk
        · exact absurd (List.mem_singleton.1 hk).symm hkj)
  exact hloop i (List.mem_range.2 hi)

theorem of_rhsEntry {reference : Array R} {i : ℕ} {v : R} (hactive : e.set.isRowActive i = .ok true)
    (hok : e.rhsEntry reference i = .ok v) :
    ∃ b d, e.rowBound i = .ok b ∧ e.problem.rowDot i reference = .ok d ∧ v = b - d := by
  rw [rhsEntry, hactive, ok_bind, if_pos rfl] at hok
  simp only [bind_eq_ok_iff, pure_eq_ok_iff] at hok
  obtain ⟨b, hb, d, hd, rfl⟩ := hok
  exact ⟨b, d, hb, hd, rfl⟩

end Engine

namespace SparseMatrix

variable {a aT : SparseMatrix R}

/-- The inner product with a row is read off the stored transpose. -/
theorem IsTranspose.rowDot_eq (h : a.Formatted) (hT : IsTranspose a aT) {p : Problem R} (hp : p.aT = aT)
    {x : Array R} (hx : x.size = a.ncols) {i : ℕ} (hi : i < a.nrows) : p.rowDot i x = .ok (a.rowSum x i) := by
  have hrow : p.rowDot i x = aT.columnDot x i := by
    rw [Problem.rowDot, columnDot, hp, hT.fits.entries_eq (hT.ncols ▸ hi)]
  rw [hrow, (hT.formatted h).columnDot_eq (hx.trans hT.nrows.symm) (hT.ncols ▸ hi), hT.columnSum_eq h]

/-- An active row of a new right-hand side is its bound less the inner product of the row and the base values. -/
theorem IsTranspose.rhs_eq (h : a.Formatted) (hT : IsTranspose a aT) {e e' : Engine R} (ha : e.problem.a = a)
    (haT : e.problem.aT = aT) (hok : e.rebase = .ok e') (hsize : e'.work.reference.size = a.ncols) {i : ℕ}
    (hi : i < a.nrows) (hactive : e.set.isRowActive i = .ok true) :
    ∃ b, e.rowBound i = .ok b ∧ e'.work.rhs[i]? = some (b - a.rowSum e'.work.reference i) := by
  subst ha
  obtain ⟨r, hr, hrhs⟩ := Engine.rhs_of_rebase hok hi
  obtain ⟨b, d, hb, hd, rfl⟩ := Engine.of_rhsEntry hactive hr
  rw [hT.rowDot_eq h haT hsize hi, Except.ok.injEq] at hd
  exact ⟨b, hb, by rw [hrhs, hd]⟩

theorem Formatted.mulVec_one_zero (h : a.Formatted) {x v : Array R} (hx : x.size = a.ncols) (hv : v.size = a.nrows) :
    a.mulVec v x 1 0 = .ok (table a.nrows (a.rowSum x)) := by
  rw [h.mulVec_ok hx hv]
  exact congrArg Except.ok (table_congr fun i _ => by rw [one_mul, zero_mul, add_zero])

theorem Formatted.mulVecTransposed_one_zero (h : a.Formatted) {z u : Array R} (hz : z.size = a.nrows)
    (hu : u.size = a.ncols) : a.mulVecTransposed u z 1 0 = .ok (table a.ncols (a.columnSum z)) := by
  rw [h.mulVecTransposed_eq hz hu]
  exact congrArg Except.ok (table_congr fun j _ => by rw [one_mul, zero_mul, add_zero])

/-- The inner products of the two products. -/
theorem dot_rowSum_eq (a : SparseMatrix R) {x z : Array R} (hx : x.size = a.ncols) (hz : z.size = a.nrows) :
    Dense.dot (table a.nrows (a.rowSum x)) z = Dense.dot x (table a.ncols (a.columnSum z)) :=
  calc Dense.dot (table a.nrows (a.rowSum x)) z
      = ∑ i ∈ Finset.range a.nrows, (table a.nrows (a.rowSum x)).getD i 0 * z.getD i 0 :=
        Dense.dot_eq_sum (size_table _ _) hz
    _ = ∑ i ∈ Finset.range a.nrows, a.rowSum x i * z.getD i 0 :=
        Finset.sum_congr rfl fun i hi => by rw [getD_table_of_lt (Finset.mem_range.1 hi)]
    _ = ∑ j ∈ Finset.range a.ncols, x.getD j 0 * a.columnSum z j := a.sum_rowSum_mul x z
    _ = ∑ j ∈ Finset.range a.ncols, x.getD j 0 * (table a.ncols (a.columnSum z)).getD j 0 :=
        Finset.sum_congr rfl fun j hj => by rw [getD_table_of_lt (Finset.mem_range.1 hj)]
    _ = Dense.dot x (table a.ncols (a.columnSum z)) := (Dense.dot_eq_sum hx (size_table _ _)).symm

/-- The product with a matrix scatters to the sums over the rows, and the product with the stored transpose gathers the
same ones; the sums over the columns are gathered with the matrix and scattered with the transpose. The two products are
adjoint to each other. Each entry of the product is the inner product with a row that a problem answers with, and the
one that a new right-hand side has taken off the bound of an active row. -/
theorem products_agree (hcheck : a.check = .ok ()) (s t : R) {x u z v : Array R} (hx : x.size = a.ncols)
    (hu : u.size = a.ncols) (hz : z.size = a.nrows) (hv : v.size = a.nrows) :
    (∃ y, a.mulVec v x s t = .ok y ∧ (y = table a.nrows fun i => s * a.rowSum x i + t * v.getD i 0) ∧
      ∀ aT, a.transpose = .ok aT → aT.mulVecTransposed v x s t = .ok y) ∧
    (∃ w, a.mulVecTransposed u z s t = .ok w ∧ (w = table a.ncols fun j => s * a.columnSum z j + t * u.getD j 0) ∧
      ∀ aT, a.transpose = .ok aT → aT.mulVec u z s t = .ok w) ∧
    ∃ y w, a.mulVec v x 1 0 = .ok y ∧ a.mulVecTransposed u z 1 0 = .ok w ∧ Dense.dot y z = Dense.dot x w ∧
      ∀ aT, a.transpose = .ok aT → ∀ i < a.nrows, ∃ d, y[i]? = some d ∧
        (∀ p : Problem R, p.aT = aT → p.rowDot i x = .ok d) ∧
        ∀ e e' : Engine R, e.problem.a = a → e.problem.aT = aT → e.rebase = .ok e' → e'.work.reference = x →
          e.set.isRowActive i = .ok true → ∃ b, e.rowBound i = .ok b ∧ e'.work.rhs[i]? = some (b - d) := by
  have h := formatted_of_check hcheck
  refine ⟨⟨_, h.mulVec_ok hx hv s t, rfl, fun aT hok => ?_⟩, ⟨_, h.mulVecTransposed_eq hz hu s t, rfl, fun aT hok => ?_⟩,
    _, _, h.mulVec_one_zero hx hv, h.mulVecTransposed_one_zero hz hu, a.dot_rowSum_eq hx hz, fun aT hok i hi => ?_⟩
  all_goals have hT := h.isTranspose_of_ok hok
  · rw [(hT.formatted h).mulVecTransposed_eq (hx.trans hT.nrows.symm) (hv.trans hT.ncols.symm), hT.columnSum_eq h,
      hT.ncols]
  · rw [(hT.formatted h).mulVec_ok (hz.trans hT.ncols.symm) (hu.trans hT.nrows.symm), hT.rowSum_eq h, hT.nrows]
  · refine ⟨_, getElem?_table_of_lt hi, fun p hp => hT.rowDot_eq h hp hx hi, ?_⟩
    rintro e e' ha haT hrebase rfl hactive
    exact hT.rhs_eq h ha haT hrebase hx hi hactive

theorem products_agree_gaps : ∃ aT, gaps.transpose = .ok aT ∧
    gaps.mulVec #[1, 2, 3] #[1, 2, 3, 4] 2 (-1) = .ok #[25, -2, -3] ∧
    aT.mulVecTransposed #[1, 2, 3] #[1, 2, 3, 4] 2 (-1) = .ok #[25, -2, -3] := by
  have hT : gaps.transpose = .ok ⟨4, 3, #[0, 3, 3, 5], #[0, 2, 3, 0, 3], #[1, 0, 3, -2, 1 / 2]⟩ := by decide +kernel
  have hy : gaps.mulVec #[1, 2, 3] #[1, 2, 3, 4] 2 (-1) = .ok #[25, -2, -3] := by decide +kernel
  obtain ⟨⟨y, hmul, -, hgather⟩, -⟩ := products_agree (a := gaps) (x := #[1, 2, 3, 4]) (u := #[0, 0, 0, 0])
    (z := #[0, 0, 0]) (v := #[1, 2, 3]) (by decide +kernel) 2 (-1) rfl rfl rfl rfl
  rw [hy, Except.ok.injEq] at hmul
  exact ⟨_, hT, hy, hmul ▸ hgather _ hT⟩

end SparseMatrix

end PolyProjection
