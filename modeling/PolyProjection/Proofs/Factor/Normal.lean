import Mathlib
import PolyProjection.Proofs.Factor.Columns
import PolyProjection.Proofs.Factor.Elimination
import PolyProjection.Proofs.Factor.RankOne
import PolyProjection.Proofs.Sparse.Products

/-! The matrix that is factored: `A_F * A_Fᵀ + σ * I` over the active rows and the identity over the others. It is
at least `σ`, so elimination needs no exchanges and no lifting, and its columns stay in every pattern that covers
the columns of `A` and contains its fill. -/

namespace PolyProjection

set_option linter.unusedSectionVars false

variable {K : Type} [Field K] [LinearOrder K] [IsStrictOrderedRing K]

/-- The coefficient in row `i` of column `j`, zero in inactive rows. -/
def activeCoeff (a : SparseMatrix K) (act : ℕ → Bool) (i j : ℕ) : K :=
  if act i then a.coeff i j else 0

/-- `A_F * A_Fᵀ + σ * I` on the active rows and the identity on the inactive ones. -/
def normal (a : SparseMatrix K) (free act : ℕ → Bool) (sigma : K) (i k : ℕ) : K :=
  if act i && act k then
    ∑ j ∈ Finset.range a.ncols, (if free j then a.coeff i j * a.coeff k j else 0) + if i = k then sigma else 0
  else if i = k then 1 else 0

/-- The pattern has an entry for every two rows of the matrix that share a column. -/
structure Fill.Covers (s : Fill) (a : SparseMatrix K) : Prop where
  size_eq : s.size = a.nrows
  coupled : ∀ i k j, i ∈ (a.columnEntries j).map Prod.fst → k ∈ (a.columnEntries j).map Prod.fst → i < k →
    s.has k i = true

variable {a : SparseMatrix K} {free act : ℕ → Bool} {sigma : K} {s : Fill}

omit [Field K] [LinearOrder K] [IsStrictOrderedRing K] in
/-- The first active row of a column of the matrix has the other ones in its column of the pattern. -/
theorem Fill.Covers.live_of_first (hs : s.Covers a) (ha : a.Formatted) {j start : ℕ} {rows : List ℕ}
    (hrows : ((a.columnEntries j).map Prod.fst).filter act = start :: rows) :
    start < s.size ∧ act start = true ∧ ∀ i ∈ start :: rows, i = start ∨ s.Live act start i := by
  have hmem : ∀ i ∈ start :: rows, i ∈ (a.columnEntries j).map Prod.fst ∧ act i = true := fun i hi => by
    rw [← List.mem_filter, hrows]
    exact hi
  have hstart := hmem start List.mem_cons_self
  have hascending : (start :: rows).Pairwise (· < ·) := hrows ▸ (ha.ascending j).filter act
  refine ⟨?_, hstart.2, fun i hi => ?_⟩
  · obtain ⟨e, he, hkey⟩ := List.mem_map.1 hstart.1
    rw [hs.size_eq, ← hkey]
    exact ha.row_lt j e he
  · have hcolumn := hmem i hi
    rcases List.mem_cons.1 hi with rfl | hi
    · exact Or.inl rfl
    · exact Or.inr ⟨hs.coupled start i j hstart.1 hcolumn.1 (List.rel_of_pairwise_cons hascending hi), hcolumn.2⟩

theorem normal_symm (i k : ℕ) : normal a free act sigma i k = normal a free act sigma k i := by
  by_cases hik : i = k
  · rw [hik]
  · rw [normal, normal, Bool.and_comm, if_neg hik, if_neg hik, if_neg (Ne.symm hik), if_neg (Ne.symm hik)]
    simp only [mul_comm (a.coeff i _)]

theorem normal_eq_sum (i k : ℕ) : normal a free act sigma i k =
    ∑ j ∈ Finset.range a.ncols, (if free j then activeCoeff a act i j * activeCoeff a act k j else 0) +
      if i = k then (if act i then sigma else 1) else 0 := by
  rw [normal]
  by_cases hi : act i = true
  · by_cases hk : act k = true
    · simp [activeCoeff, hi, hk]
    · have hne : i ≠ k := fun h => hk (h ▸ hi)
      simp [activeCoeff, hk, hne]
  · simp [activeCoeff, hi]

/-- A quadratic form of products is a sum of squares. -/
theorem sum_normal (z : ℕ → K) (n : ℕ) : quadratic (normal a free act sigma) 0 n z =
    ∑ j ∈ Finset.range a.ncols,
      (if free j then (∑ i ∈ Finset.Ico 0 n, activeCoeff a act i j * z i) ^ 2 else 0) +
      ∑ i ∈ Finset.Ico 0 n, (if act i then sigma else 1) * z i ^ 2 := by
  have hterm : ∀ i k, z i * normal a free act sigma i k * z k =
      ∑ j ∈ Finset.range a.ncols,
        (if free j then activeCoeff a act i j * z i * (activeCoeff a act k j * z k) else 0) +
        if i = k then (if act i then sigma else 1) * z i ^ 2 else 0 := by
    intro i k
    rw [normal_eq_sum, mul_add, add_mul, Finset.mul_sum, Finset.sum_mul]
    congr 1
    · refine Finset.sum_congr rfl fun j _ => ?_
      split_ifs <;> ring
    · by_cases hik : i = k
      · rw [if_pos hik, if_pos hik, hik]
        ring
      · rw [if_neg hik, if_neg hik]
        ring
  simp only [quadratic, hterm, Finset.sum_add_distrib]
  congr 1
  · have hswap : ∀ i, ∑ k ∈ Finset.Ico 0 n, ∑ j ∈ Finset.range a.ncols,
        (if free j then activeCoeff a act i j * z i * (activeCoeff a act k j * z k) else 0) =
        ∑ j ∈ Finset.range a.ncols, ∑ k ∈ Finset.Ico 0 n,
          (if free j then activeCoeff a act i j * z i * (activeCoeff a act k j * z k) else 0) :=
      fun i => Finset.sum_comm
    simp only [hswap]
    rw [Finset.sum_comm]
    refine Finset.sum_congr rfl fun j _ => ?_
    by_cases hj : free j = true
    · simp only [if_pos hj, sq, Finset.sum_mul_sum]
    · simp only [if_neg hj, Finset.sum_const_zero]
  · refine Finset.sum_congr rfl fun i hi => ?_
    rw [Finset.sum_ite_eq, if_pos hi]

theorem isAtLeast_normal (n : ℕ) :
    IsAtLeast (fun i => if act i then sigma else 1) (normal a free act sigma) 0 n := by
  intro z
  rw [sum_normal]
  refine le_add_of_nonneg_left (Finset.sum_nonneg fun j _ => ?_)
  split_ifs
  · exact sq_nonneg _
  · exact le_rfl

/-- No pivot of an active row is below the regularization. -/
theorem le_pivot_normal (hsigma : 0 < sigma) {k : ℕ} :
    (if act k then sigma else 1) ≤ pivot (normal a free act sigma) k := by
  refine (isAtLeast_normal (k + 1)).le_pivot (fun i => ?_) (Nat.lt_succ_self k)
  split_ifs
  · exact hsigma
  · exact one_pos

theorem pivot_normal_pos (hsigma : 0 < sigma) (k : ℕ) : 0 < pivot (normal a free act sigma) k := by
  refine lt_of_lt_of_le ?_ (le_pivot_normal hsigma)
  split_ifs
  · exact hsigma
  · exact one_pos

theorem LdlFactor.lift_of_le {x : K} (hx : sigma ≤ x) : LdlFactor.lift sigma x = x :=
  if_neg (by simpa using hx)

/-- What leaves values from the regularization on as they are leaves the pivots of active rows as they are. -/
theorem floor_pivot_normal {floor : K → K} (hfloor : ∀ x, sigma ≤ x → floor x = x) (hsigma : 0 < sigma) {k : ℕ}
    (hk : act k = true) : floor (pivot (normal a free act sigma) k) = pivot (normal a free act sigma) k := by
  have hle := @le_pivot_normal K _ _ _ a free act sigma hsigma k
  rw [if_pos hk] at hle
  exact hfloor _ hle

theorem normal_of_inactive {k : ℕ} (hk : act k = false) {i : ℕ} (hi : i ≠ k) :
    normal a free act sigma k i = 0 ∧ normal a free act sigma i k = 0 := by
  constructor
  · rw [normal, hk, Bool.false_and, if_neg (by decide), if_neg hi.symm]
  · rw [normal, hk, Bool.and_false, if_neg (by decide), if_neg hi]

/-- The pivot of an inactive row is one, and no row is coupled to it. -/
theorem pivot_of_inactive {k : ℕ} (hk : act k = false) : pivot (normal a free act sigma) k = 1 := by
  rw [pivot, (schur_diagonal_of_apart (fun j hj => normal_of_inactive hk hj) le_rfl).1, normal, hk,
    Bool.false_and, if_neg (by decide), if_pos rfl]

theorem lower_of_inactive {k : ℕ} (hk : act k = false) {i : ℕ} (hi : i ≠ k) :
    lower (normal a free act sigma) i k = 0 := by
  rw [lower, ((schur_diagonal_of_apart (fun j hj => normal_of_inactive hk hj) le_rfl).2 i hi).2, zero_div]

theorem Fill.Covers.normal_eq_zero (h : s.Covers a) {i k : ℕ} (hne : i ≠ k)
    (hik : ¬ (act i = true ∧ act k = true ∧ (s.has i k = true ∨ s.has k i = true))) :
    normal a free act sigma i k = 0 := by
  rw [normal_eq_sum, if_neg hne, add_zero]
  refine Finset.sum_eq_zero fun j _ => ?_
  by_contra hprod
  have hi : act i = true := by
    by_contra hi
    simp [activeCoeff, hi] at hprod
  have hk : act k = true := by
    by_contra hk
    simp [activeCoeff, hk] at hprod
  have hmem : ∀ r, act r = true → r ∉ (a.columnEntries j).map Prod.fst → activeCoeff a act r j = 0 :=
    fun r hr hnot => by rw [activeCoeff, if_pos hr, SparseMatrix.coeff_of_not_mem hnot]
  have hmi : i ∈ (a.columnEntries j).map Prod.fst := by
    by_contra hnot
    rw [hmem i hi hnot, zero_mul, ite_self] at hprod
    exact hprod rfl
  have hmk : k ∈ (a.columnEntries j).map Prod.fst := by
    by_contra hnot
    rw [hmem k hk hnot, mul_zero, ite_self] at hprod
    exact hprod rfl
  rcases Nat.lt_or_gt_of_ne hne with hlt | hgt
  · exact hik ⟨hi, hk, Or.inr (h.coupled i k j hmi hmk hlt)⟩
  · exact hik ⟨hi, hk, Or.inl (h.coupled k i j hmk hmi hgt)⟩

/-- Elimination leaves zero between rows that are not both active or not in the pattern. -/
theorem Fill.Covers.schur_normal_eq_zero (h : s.Covers a) {i k c : ℕ} (hi : c ≤ i) (hk : c ≤ k) (hne : i ≠ k)
    (hik : ¬ (act i = true ∧ act k = true ∧ (s.has i k = true ∨ s.has k i = true))) :
    schur (normal a free act sigma) c i k = 0 := by
  refine schur_eq_zero (r := fun i k => act i = true ∧ act k = true ∧ (s.has i k = true ∨ s.has k i = true))
    (fun i k hne hik => h.normal_eq_zero hne hik) (fun i j c hci hcj hic hcj' hne => ?_) hi hk hne hik
  have hbelow : ∀ {x y}, x < y → ¬ s.has x y = true := fun hxy hhas =>
    absurd (s.lt_of_has hhas).1 (by omega)
  have hi' := hic.2.2.resolve_right (hbelow hci)
  have hj' := hcj'.2.2.resolve_left (hbelow hcj)
  refine ⟨hic.1, hcj'.2.1, ?_⟩
  rcases Nat.lt_or_gt_of_ne hne with hlt | hgt
  · exact Or.inr (s.closed hi' hj' hlt)
  · exact Or.inl (s.closed hj' hi' hgt)

theorem Fill.Covers.eliminates (h : s.Covers a) (hsigma : 0 < sigma) :
    s.Eliminates act (normal a free act sigma) := by
  refine ⟨normal_symm, fun j _ => (pivot_normal_pos hsigma j).ne', fun i j hji hnot => ?_⟩
  rw [lower, h.schur_normal_eq_zero hji.le le_rfl hji.ne' ?_, zero_div]
  rintro ⟨hi, hj, hhas | hhas⟩
  · exact hnot ⟨hhas, hi, hj⟩
  · exact absurd (s.lt_of_has hhas).1 (by omega)

variable (s a free act sigma) in
/-- The factor for the given free columns, active rows and regularization. -/
def Fill.canonical : LdlFactor K :=
  s.factor act (lower (normal a free act sigma)) (pivot (normal a free act sigma)) sigma (fun _ => 0) fun _ => 0

end PolyProjection
