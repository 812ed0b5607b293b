import Mathlib
import PolyProjection.Factor.Update
import PolyProjection.Proofs.Exact

/-! Gaussian elimination of a symmetric matrix without exchanges. What is left when the first rows and columns
are eliminated gives the pivots and the columns of the factor; a matrix with a positive lower bound keeps the
bound, so that no pivot is below it, and a multiple of `w * wᵀ` stays one under elimination. -/

namespace PolyProjection

set_option linter.unusedSectionVars false

variable {K : Type} [Field K] [LinearOrder K] [IsStrictOrderedRing K]

/-- What is left of the matrix `m` when the rows and columns before `k` are eliminated. -/
def schur (m : ℕ → ℕ → K) : ℕ → ℕ → ℕ → K
  | 0, i, j => m i j
  | k + 1, i, j => schur m k i j - schur m k i k / schur m k k k * schur m k k j

/-- The diagonal entry of the factor in row `k`. -/
def pivot (m : ℕ → ℕ → K) (k : ℕ) : K :=
  schur m k k k

/-- The entry of the factor in row `i` of column `k`, below the diagonal. -/
def lower (m : ℕ → ℕ → K) (i k : ℕ) : K :=
  schur m k i k / pivot m k

/-- The entry of the factor in row `i` of column `k`, with ones on the diagonal and zeros above it. -/
def unitLower (m : ℕ → ℕ → K) (i k : ℕ) : K :=
  if i = k then 1 else if k < i then lower m i k else 0

variable {m m' : ℕ → ℕ → K}

theorem schur_succ (m : ℕ → ℕ → K) (k i j : ℕ) :
    schur m (k + 1) i j = schur m k i j - lower m i k * schur m k k j := rfl

theorem schur_symm (hm : ∀ i j, m i j = m j i) (k i j : ℕ) : schur m k i j = schur m k j i := by
  induction k generalizing i j with
  | zero => exact hm i j
  | succ k ih =>
      rw [schur_succ, schur_succ, lower, lower, ih i j, ih i k, ih k j]
      ring

theorem schur_succ_symm (hm : ∀ i j, m i j = m j i) (k i j : ℕ) :
    schur m (k + 1) i j = schur m k i j - lower m j k * schur m k i k := by
  rw [schur_succ, lower, lower, schur_symm hm k k j]
  ring

theorem lower_mul_pivot {k : ℕ} (h : pivot m k ≠ 0) (i : ℕ) : lower m i k * pivot m k = schur m k i k :=
  div_mul_cancel₀ _ h

/-- The part of the matrix that elimination takes away is the product of the columns of the factor. -/
theorem schur_eq_sub_sum (hm : ∀ i j, m i j = m j i) {k : ℕ} (h : ∀ l < k, pivot m l ≠ 0) (i j : ℕ) :
    schur m k i j = m i j - ∑ l ∈ Finset.range k, lower m i l * pivot m l * lower m j l := by
  induction k with
  | zero => simp [schur]
  | succ k ih =>
      have hk : schur m k k j = pivot m k * lower m j k := by
        rw [mul_comm, lower_mul_pivot (h k (Nat.lt_succ_self k)), schur_symm hm]
      rw [schur_succ, ih fun l hl => h l (hl.trans (Nat.lt_succ_self k)), hk, Finset.sum_range_succ]
      ring

theorem sum_unitLower_of_le (hm : ∀ i j, m i j = m j i) {n i j : ℕ} (h : ∀ l < n, pivot m l ≠ 0) (hij : i ≤ j)
    (hj : j < n) : ∑ l ∈ Finset.range n, unitLower m i l * pivot m l * unitLower m j l = m i j := by
  have hbelow : ∑ l ∈ Finset.range i, unitLower m i l * pivot m l * unitLower m j l =
      m i j - schur m i i j := by
    rw [schur_eq_sub_sum hm (fun l hl => h l (by omega)) i j, sub_sub_cancel]
    refine Finset.sum_congr rfl fun l hl => ?_
    have hl := Finset.mem_range.1 hl
    rw [unitLower, unitLower, if_neg (by omega), if_pos hl, if_neg (by omega), if_pos (by omega)]
  have habove : ∑ l ∈ Finset.Ico (i + 1) n, unitLower m i l * pivot m l * unitLower m j l = 0 := by
    refine Finset.sum_eq_zero fun l hl => ?_
    have hl := Finset.mem_Ico.1 hl
    rw [unitLower, if_neg (by omega), if_neg (by omega), zero_mul, zero_mul]
  have hat : unitLower m i i * pivot m i * unitLower m j i = schur m i i j := by
    rw [unitLower, if_pos rfl, one_mul]
    rcases Nat.eq_or_lt_of_le hij with rfl | hlt
    · rw [unitLower, if_pos rfl, mul_one, pivot]
    · rw [unitLower, if_neg (by omega), if_pos hlt, mul_comm, lower_mul_pivot (h i (by omega)), schur_symm hm]
  calc ∑ l ∈ Finset.range n, unitLower m i l * pivot m l * unitLower m j l
      = ∑ l ∈ Finset.range i, unitLower m i l * pivot m l * unitLower m j l +
          (unitLower m i i * pivot m i * unitLower m j i +
            ∑ l ∈ Finset.Ico (i + 1) n, unitLower m i l * pivot m l * unitLower m j l) := by
        rw [← Finset.sum_range_add_sum_Ico _ (show i ≤ n by omega), Finset.sum_eq_sum_Ico_succ_bot (by omega)]
    _ = m i j - schur m i i j + (schur m i i j + 0) := by rw [hbelow, hat, habove]
    _ = m i j := by ring

/-- The product of the factor is the matrix. -/
theorem sum_unitLower (hm : ∀ i j, m i j = m j i) {n i j : ℕ} (h : ∀ l < n, pivot m l ≠ 0) (hi : i < n)
    (hj : j < n) : ∑ l ∈ Finset.range n, unitLower m i l * pivot m l * unitLower m j l = m i j := by
  rcases le_total i j with hij | hij
  · exact sum_unitLower_of_le hm h hij hj
  · rw [hm i j, ← sum_unitLower_of_le hm h hij hi]
    exact Finset.sum_congr rfl fun l _ => by ring

section Bound

/-- The quadratic form of a matrix on the indices from `k` up to `n`. -/
def quadratic (m : ℕ → ℕ → K) (k n : ℕ) (z : ℕ → K) : K :=
  ∑ i ∈ Finset.Ico k n, ∑ j ∈ Finset.Ico k n, z i * m i j * z j

/-- On the indices from `k` up to `n` the matrix is at least the diagonal matrix with the entries `b`. -/
def IsAtLeast (b : ℕ → K) (m : ℕ → ℕ → K) (k n : ℕ) : Prop :=
  ∀ z : ℕ → K, ∑ i ∈ Finset.Ico k n, b i * z i ^ 2 ≤ quadratic m k n z

variable {b : ℕ → K} {k n : ℕ}

theorem IsAtLeast.le_diagonal (h : IsAtLeast b m k n) (hk : k < n) : b k ≤ m k k := by
  have hz := h (Pi.single k 1)
  have hmem : k ∈ Finset.Ico k n := Finset.mem_Ico.2 ⟨le_rfl, hk⟩
  have hleft : ∑ i ∈ Finset.Ico k n, b i * (Pi.single k 1 : ℕ → K) i ^ 2 = b k := by
    rw [Finset.sum_eq_single_of_mem k hmem fun i _ hi => by rw [Pi.single_eq_of_ne hi]; ring, Pi.single_eq_same]
    ring
  have hright : quadratic m k n (Pi.single k 1) = m k k := by
    rw [quadratic, Finset.sum_eq_single_of_mem k hmem fun i _ hi => by simp [Pi.single_eq_of_ne hi],
      Finset.sum_eq_single_of_mem k hmem fun j _ hj => by simp [Pi.single_eq_of_ne hj], Pi.single_eq_same]
    ring
  rwa [hleft, hright] at hz

/-- The value of `z k` that makes row `k` vanish leaves the form of the matrix with row `k` eliminated. -/
theorem quadratic_schur_succ (hk : k < n) (hp : pivot m k ≠ 0) (z : ℕ → K) :
    quadratic (schur m k) k n
        (Function.update z k (-(∑ j ∈ Finset.Ico (k + 1) n, schur m k k j * z j) / pivot m k)) =
      quadratic (schur m (k + 1)) (k + 1) n z := by
  set t := ∑ j ∈ Finset.Ico (k + 1) n, schur m k k j * z j with ht
  set z' := Function.update z k (-t / pivot m k) with hz'
  have hself : z' k = -t / pivot m k := Function.update_self ..
  have hother : ∀ i ∈ Finset.Ico (k + 1) n, z' i = z i := fun i hi =>
    Function.update_of_ne (by have := Finset.mem_Ico.1 hi; omega) ..
  have hrow : ∑ j ∈ Finset.Ico k n, schur m k k j * z' j = 0 := by
    rw [Finset.sum_eq_sum_Ico_succ_bot hk, hself, Finset.sum_congr rfl fun j hj => by rw [hother j hj], ← ht,
      ← pivot]
    field_simp
    ring
  have hrest : ∀ i ∈ Finset.Ico (k + 1) n, ∑ j ∈ Finset.Ico k n, z' i * schur m k i j * z' j =
      ∑ j ∈ Finset.Ico (k + 1) n, z i * schur m (k + 1) i j * z j := by
    intro i hi
    have hsplit : ∑ j ∈ Finset.Ico (k + 1) n, z i * schur m (k + 1) i j * z j =
        ∑ j ∈ Finset.Ico (k + 1) n, z i * schur m k i j * z j - z i * lower m i k * t := by
      rw [ht, Finset.mul_sum, ← Finset.sum_sub_distrib]
      refine Finset.sum_congr rfl fun j _ => ?_
      rw [schur_succ]
      ring
    rw [hsplit, Finset.sum_eq_sum_Ico_succ_bot hk, hself, hother i hi, lower,
      Finset.sum_congr rfl fun j hj => by rw [hother j hj]]
    ring
  have hfirst : ∑ j ∈ Finset.Ico k n, z' k * schur m k k j * z' j = 0 := by
    rw [Finset.sum_congr rfl fun j _ => mul_assoc (z' k) _ _, ← Finset.mul_sum, hrow, mul_zero]
  rw [quadratic, quadratic, Finset.sum_eq_sum_Ico_succ_bot hk, hfirst, zero_add]
  exact Finset.sum_congr rfl hrest

theorem IsAtLeast.succ (hb : ∀ i, 0 < b i) (hk : k < n)
    (h : IsAtLeast b (schur m k) k n) : IsAtLeast b (schur m (k + 1)) (k + 1) n := by
  intro z
  have hp : pivot m k ≠ 0 := ((hb k).trans_le (h.le_diagonal hk)).ne'
  set z' := Function.update z k (-(∑ j ∈ Finset.Ico (k + 1) n, schur m k k j * z j) / pivot m k) with hz'
  have hother : ∀ i ∈ Finset.Ico (k + 1) n, b i * z i ^ 2 = b i * z' i ^ 2 := by
    intro i hi
    rw [hz', Function.update_of_ne (by have := Finset.mem_Ico.1 hi; omega)]
  calc ∑ i ∈ Finset.Ico (k + 1) n, b i * z i ^ 2
      = ∑ i ∈ Finset.Ico (k + 1) n, b i * z' i ^ 2 := Finset.sum_congr rfl hother
    _ ≤ b k * z' k ^ 2 + ∑ i ∈ Finset.Ico (k + 1) n, b i * z' i ^ 2 :=
        le_add_of_nonneg_left (mul_nonneg (hb k).le (sq_nonneg _))
    _ = ∑ i ∈ Finset.Ico k n, b i * z' i ^ 2 := (Finset.sum_eq_sum_Ico_succ_bot hk fun i => b i * z' i ^ 2).symm
    _ ≤ quadratic (schur m k) k n z' := h z'
    _ = quadratic (schur m (k + 1)) (k + 1) n z := quadratic_schur_succ hk hp z

/-- No pivot of a matrix is below a lower bound of the matrix. -/
theorem IsAtLeast.le_pivot (hb : ∀ i, 0 < b i) (h : IsAtLeast b m 0 n) (hk : k < n) :
    b k ≤ pivot m k := by
  have hall : ∀ l ≤ k, IsAtLeast b (schur m l) l n := by
    intro l
    induction l with
    | zero => exact fun _ => h
    | succ l ih => exact fun hl => (ih (by omega)).succ hb (by omega)
  exact (hall k le_rfl).le_diagonal hk

end Bound

section Pattern

/-- Elimination keeps the zeros outside of a pattern that contains the fill. -/
theorem schur_eq_zero {r : ℕ → ℕ → Prop} (hm : ∀ i j, i ≠ j → ¬ r i j → m i j = 0)
    (hr : ∀ i j k, k < i → k < j → r i k → r k j → i ≠ j → r i j) {k i j : ℕ} (hi : k ≤ i) (hj : k ≤ j)
    (hne : i ≠ j) (h : ¬ r i j) : schur m k i j = 0 := by
  induction k generalizing i j with
  | zero => exact hm i j hne h
  | succ k ih =>
      rw [schur_succ, ih (by omega) (by omega) hne h, lower]
      by_cases hik : r i k
      · have hkj : ¬ r k j := fun hkj => h (hr i j k (by omega) (by omega) hik hkj hne)
        rw [ih le_rfl (by omega) (by omega) hkj, mul_zero, sub_zero]
      · rw [ih (by omega) le_rfl (by omega) hik, zero_div, zero_mul, sub_zero]

/-- A row without entries beside the diagonal keeps its diagonal entry. -/
theorem schur_diagonal_of_apart {r : ℕ} (hm : ∀ j, j ≠ r → m r j = 0 ∧ m j r = 0) {k : ℕ} (hk : k ≤ r) :
    schur m k r r = m r r ∧ ∀ j, j ≠ r → schur m k r j = 0 ∧ schur m k j r = 0 := by
  induction k with
  | zero => exact ⟨rfl, hm⟩
  | succ k ih =>
      obtain ⟨hdiag, hrow⟩ := ih (by omega)
      have hk' : k ≠ r := by omega
      refine ⟨by rw [schur_succ, hdiag, (hrow k hk').2, mul_zero, sub_zero], fun j hj => ⟨?_, ?_⟩⟩
      · rw [schur_succ, lower, (hrow j hj).1, (hrow k hk').1, zero_div, zero_mul, sub_zero]
      · rw [schur_succ, (hrow j hj).2, (hrow k hk').2, mul_zero, sub_zero]

/-- A row that is not eliminated yet does not matter to the others. -/
theorem schur_congr {r : ℕ} (hm : ∀ i j, i ≠ r → j ≠ r → m i j = m' i j) {k i j : ℕ} (hk : k ≤ r) (hi : i ≠ r)
    (hj : j ≠ r) : schur m k i j = schur m' k i j := by
  induction k generalizing i j with
  | zero => exact hm i j hi hj
  | succ k ih =>
      have hkr : k ≠ r := by omega
      rw [schur_succ, schur_succ, lower, lower, pivot, pivot, ih (by omega) hi hj, ih (by omega) hi hkr,
        ih (by omega) hkr hkr, ih (by omega) hkr hj]

theorem lower_congr {r : ℕ} (hm : ∀ i j, i ≠ r → j ≠ r → m i j = m' i j) {i k : ℕ} (hk : k < r) (hi : i ≠ r) :
    lower m i k = lower m' i k ∧ pivot m k = pivot m' k := by
  have hkr : k ≠ r := by omega
  rw [lower, lower, pivot, pivot, schur_congr hm hk.le hi hkr, schur_congr hm hk.le hkr hkr]
  exact ⟨rfl, rfl⟩

end Pattern

section Change

/-- From row `k` on the two matrices differ by `alpha * w * wᵀ` after elimination of the rows before. -/
def DiffersBy (m m' : ℕ → ℕ → K) (k : ℕ) (alpha : K) (w : ℕ → K) : Prop :=
  ∀ i j, k ≤ i → k ≤ j → schur m' k i j = schur m k i j + alpha * w i * w j

variable {k : ℕ} {alpha : K} {w : ℕ → K}

theorem DiffersBy.pivot_eq (h : DiffersBy m m' k alpha w) : pivot m' k = pivot m k + alpha * w k * w k :=
  h k k le_rfl le_rfl

theorem DiffersBy.lower_eq (h : DiffersBy m m' k alpha w) (hp : pivot m k ≠ 0) (hp' : pivot m' k ≠ 0) {i : ℕ}
    (hi : k < i) : lower m' i k = lower m i k + w k * alpha / pivot m' k * (w i - w k * lower m i k) := by
  rw [lower, h i k hi.le le_rfl, ← lower_mul_pivot hp i]
  field_simp
  rw [h.pivot_eq]
  ring

/-- The elimination of row `k` leaves a smaller multiple of another product. -/
theorem DiffersBy.succ (h : DiffersBy m m' k alpha w) (hm : ∀ i j, m i j = m j i) (hp : pivot m k ≠ 0)
    (hp' : pivot m' k ≠ 0) :
    DiffersBy m m' (k + 1) (alpha * pivot m k / pivot m' k) fun i => w i - w k * lower m i k := by
  intro i j hi hj
  have hij := h i j (by omega) (by omega)
  have hkj := h k j le_rfl (by omega)
  have hsj : schur m k k j = lower m j k * pivot m k := by rw [lower_mul_pivot hp, schur_symm hm]
  rw [schur_succ, schur_succ, hij, hkj, h.lower_eq hp hp' (by omega), hsj]
  field_simp
  rw [h.pivot_eq]
  ring

theorem DiffersBy.symm (h : DiffersBy m m' k alpha w) : DiffersBy m' m k (-alpha) w := by
  intro i j hi hj
  rw [h i j hi hj]
  ring

theorem DiffersBy.congr {w' : ℕ → K} (h : DiffersBy m m' k alpha w) (hw : ∀ i, k ≤ i → w' i = w i) :
    DiffersBy m m' k alpha w' := by
  intro i j hi hj
  rw [h i j hi hj, hw i hi, hw j hj]

theorem DiffersBy.lower_of_zero (h : DiffersBy m m' k alpha w) (hw : w k = 0) {i : ℕ} (hi : k ≤ i) :
    lower m' i k = lower m i k ∧ pivot m' k = pivot m k := by
  have hp : pivot m' k = pivot m k := by rw [h.pivot_eq, hw, mul_zero, add_zero]
  refine ⟨?_, hp⟩
  rw [lower, lower, hp, h i k hi le_rfl, hw, mul_zero, add_zero]

theorem DiffersBy.succ_of_zero (h : DiffersBy m m' k alpha w) (hw : w k = 0) : DiffersBy m m' (k + 1) alpha w := by
  intro i j hi hj
  rw [schur_succ, schur_succ, h i j (by omega) (by omega), h k j le_rfl (by omega),
    (h.lower_of_zero hw (by omega)).1, hw]
  ring

/-- Rows where `w` is zero are passed over. -/
theorem DiffersBy.skip (h : DiffersBy m m' k alpha w) {l : ℕ} (hl : k ≤ l) (hw : ∀ i, k ≤ i → i < l → w i = 0) :
    DiffersBy m m' l alpha w := by
  induction l, hl using Nat.le_induction with
  | base => exact h
  | succ l hl ih => exact (ih fun i hi hil => hw i hi (by omega)).succ_of_zero (hw l hl (Nat.lt_succ_self l))

/-- Both matrices have the same columns of the factor where `w` is zero. -/
theorem DiffersBy.passed (h : DiffersBy m m' k alpha w) {l : ℕ} (hw : ∀ i, k ≤ i → i < l → w i = 0) {c i : ℕ}
    (hc : k ≤ c) (hcl : c < l) (hi : c ≤ i) : lower m' i c = lower m i c ∧ pivot m' c = pivot m c :=
  (h.skip hc fun i hi hic => hw i hi (hic.trans hcl)).lower_of_zero (hw c hc hcl) hi

end Change

end PolyProjection
