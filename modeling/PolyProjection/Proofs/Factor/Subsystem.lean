import Mathlib
import PolyProjection.Proofs.Factor.Elimination

/-! The rows of an interval that no earlier row is coupled to. They are eliminated as if nothing stood before them, so
their part of the factor solves the system of these rows alone, and it depends on the entries between them only. -/

namespace PolyProjection

set_option linter.unusedSectionVars false

variable {K : Type} [Field K] [LinearOrder K] [IsStrictOrderedRing K]

/-- No row of the interval is coupled to a row before it. -/
def Apart (m : ℕ → ℕ → K) (top bottom : ℕ) : Prop :=
  ∀ i, top ≤ i → i < bottom → ∀ j < top, m i j = 0

variable {m m' : ℕ → ℕ → K} {top bottom stop c i j : ℕ}

theorem Apart.mono (h : Apart m top bottom) (hle : stop ≤ bottom) : Apart m top stop :=
  fun i htop hi j hj => h i htop (hi.trans_le hle) j hj

theorem Apart.schur_eq (h : Apart m top bottom) (htop : top ≤ i) (hi : i < bottom) (hc : c ≤ top) (j : ℕ) :
    schur m c i j = m i j := by
  induction c generalizing j with
  | zero => rfl
  | succ c ih =>
      rw [schur, ih (by omega), ih (by omega), h i htop hi c (by omega), zero_div, zero_mul, sub_zero]

theorem Apart.lower_eq_zero (h : Apart m top bottom) (htop : top ≤ i) (hi : i < bottom) (hj : j < top) :
    lower m i j = 0 := by
  rw [lower, h.schur_eq htop hi hj.le, h i htop hi j hj, zero_div]

/-- What is left of the interval depends on the entries of the interval only. -/
theorem Apart.schur_congr (h : Apart m top bottom) (h' : Apart m' top bottom)
    (heq : ∀ i j, top ≤ i → i < bottom → top ≤ j → j < bottom → m i j = m' i j) (hc : top ≤ c) (hi : c ≤ i)
    (hib : i < bottom) (hj : c ≤ j) (hjb : j < bottom) : schur m c i j = schur m' c i j := by
  induction c, hc using Nat.le_induction generalizing i j with
  | base => rw [h.schur_eq hi hib le_rfl, h'.schur_eq hi hib le_rfl, heq i j hi hib hj hjb]
  | succ c hc ih =>
      rw [schur, schur, ih (by omega) hib (by omega) hjb, ih (by omega) hib le_rfl (by omega),
        ih le_rfl (by omega) le_rfl (by omega), ih le_rfl (by omega) (by omega) hjb]

theorem Apart.lower_congr (h : Apart m top bottom) (h' : Apart m' top bottom)
    (heq : ∀ i j, top ≤ i → i < bottom → top ≤ j → j < bottom → m i j = m' i j) (hj : top ≤ j) (hi : j ≤ i)
    (hib : i < bottom) : lower m i j = lower m' i j := by
  rw [lower, lower, pivot, pivot, h.schur_congr h' heq hj hi hib le_rfl (by omega),
    h.schur_congr h' heq hj le_rfl (by omega) le_rfl (by omega)]

/-- On the rows of `s` before `stop`, `y` solves the system of the lower triangle of the factor. -/
def ForwardSolved (m : ℕ → ℕ → K) (s : Finset ℕ) (b y : ℕ → K) (stop : ℕ) : Prop :=
  ∀ i ∈ s, i < stop → y i = b i - ∑ j ∈ s with j < i, lower m i j * y j

/-- On the rows of `s`, `u` solves the system of the diagonal and the upper triangle of the factor. -/
def BackSolved (m : ℕ → ℕ → K) (s : Finset ℕ) (y u : ℕ → K) : Prop :=
  ∀ j ∈ s, u j = y j / pivot m j - ∑ i ∈ s with j < i, lower m i j * u i

variable {s s' : Finset ℕ} {b b' y y' u : ℕ → K}

/-- A forward solve depends on the entries before its end only. -/
theorem ForwardSolved.congr (hy : ForwardSolved m s b y stop) (h : Apart m top stop) (h' : Apart m' top stop)
    (heq : ∀ i j, top ≤ i → i < stop → top ≤ j → j < stop → m i j = m' i j) (hs : ∀ i ∈ s, top ≤ i)
    (hmem : ∀ i < stop, i ∈ s' ↔ i ∈ s) (hb : ∀ i ∈ s, i < stop → b' i = b i) (hy' : ∀ i ∈ s, i < stop → y' i = y i) :
    ForwardSolved m' s' b' y' stop := by
  intro i hi hstop
  have hi := (hmem i hstop).1 hi
  rw [hy' i hi hstop, hb i hi hstop, hy i hi hstop]
  congr 1
  refine Finset.sum_congr (Finset.ext fun j => ?_) fun j hj => ?_
  · rw [Finset.mem_filter, Finset.mem_filter]
    exact and_congr_left fun hji => (hmem j (hji.trans hstop)).symm
  · obtain ⟨hj, hji⟩ := Finset.mem_filter.1 hj
    have hj := (hmem j (hji.trans hstop)).1 hj
    rw [h.lower_congr h' heq (hs j hj) hji.le hstop, hy' j hj (hji.trans hstop)]

/-- On the rows of an interval that is apart, only the entries of the interval count. -/
theorem ForwardSolved.congr_entries (hy : ForwardSolved m s b y stop) (h : Apart m top bottom) (h' : Apart m' top bottom)
    (heq : ∀ i j, top ≤ i → i < bottom → top ≤ j → j < bottom → m i j = m' i j)
    (hs : ∀ i ∈ s, top ≤ i ∧ i < bottom) : ForwardSolved m' s b y stop := by
  intro i hi hstop
  rw [hy i hi hstop]
  congr 1
  refine Finset.sum_congr rfl fun j hj => ?_
  obtain ⟨hj, hji⟩ := Finset.mem_filter.1 hj
  rw [h.lower_congr h' heq (hs j hj).1 hji.le (hs i hi).2]

theorem ForwardSolved.mono (hy : ForwardSolved m s b y stop) (hle : c ≤ stop) : ForwardSolved m s b y c :=
  fun i hi hc => hy i hi (hc.trans_le hle)

/-- There is one forward solution. -/
theorem ForwardSolved.unique (hy : ForwardSolved m s b y stop) (hy' : ForwardSolved m s b y' c) (hi : i ∈ s)
    (hstop : i < stop) (hc : i < c) : y i = y' i := by
  induction i using Nat.strong_induction_on with
  | _ i ih =>
      rw [hy i hi hstop, hy' i hi hc]
      congr 1
      refine Finset.sum_congr rfl fun j hj => ?_
      obtain ⟨hj, hji⟩ := Finset.mem_filter.1 hj
      rw [ih j hji hj (hji.trans hstop) (hji.trans hc)]

theorem unitLower_mul (m : ℕ → ℕ → K) (i j : ℕ) (x : K) :
    unitLower m i j * x = (if j = i then x else 0) + if j < i then lower m i j * x else 0 := by
  rw [unitLower]
  rcases Nat.lt_trichotomy j i with hji | rfl | hij
  · rw [if_neg (by omega), if_pos hji, if_neg (by omega), if_pos hji, zero_add]
  · rw [if_pos rfl, if_pos rfl, if_neg (lt_irrefl j), one_mul, add_zero]
  · rw [if_neg (by omega), if_neg (by omega), if_neg (by omega), if_neg (by omega), zero_mul, zero_add]

theorem ForwardSolved.sum_eq (hy : ForwardSolved m s b y bottom) (hi : i ∈ s) (hib : i < bottom) :
    ∑ j ∈ s, unitLower m i j * y j = b i := by
  simp only [unitLower_mul, Finset.sum_add_distrib]
  rw [Finset.sum_ite_eq' s i, if_pos hi, ← Finset.sum_filter, hy i hi hib]
  ring

theorem BackSolved.sum_eq (hu : BackSolved m s y u) (hj : j ∈ s) :
    ∑ i ∈ s, unitLower m i j * u i = y j / pivot m j := by
  simp only [unitLower_mul, Finset.sum_add_distrib]
  rw [Finset.sum_ite_eq s j, if_pos hj, ← Finset.sum_filter, hu j hj]
  ring

/-- The two triangular systems of the rows of `s` give the solution of their system in the matrix, if the other rows of
the interval are not coupled to them. -/
theorem Apart.solution (h : Apart m top bottom) (hm : ∀ i j, m i j = m j i) (hp : ∀ l < bottom, pivot m l ≠ 0)
    (hs : ∀ i ∈ s, top ≤ i ∧ i < bottom)
    (hrest : ∀ i ∈ s, ∀ l, top ≤ l → l < bottom → l ∉ s → lower m i l = 0) (hy : ForwardSolved m s b y bottom)
    (hu : BackSolved m s y u) (hi : i ∈ s) : ∑ k ∈ s, m i k * u k = b i := by
  -- an entry is a sum over the columns of the factor, of which only those of `s` contribute
  have hentry : ∀ k ∈ s, m i k = ∑ l ∈ s, unitLower m i l * pivot m l * unitLower m k l := fun k hk => by
    rw [← sum_unitLower hm hp (hs i hi).2 (hs k hk).2]
    refine (Finset.sum_subset (fun l hl => Finset.mem_range.2 (hs l hl).2) fun l hl hls => ?_).symm
    have hzero : unitLower m i l = 0 := by
      rw [unitLower, if_neg (by rintro rfl; exact hls hi)]
      split_ifs with hli
      · by_cases htop : l < top
        · exact h.lower_eq_zero (hs i hi).1 (hs i hi).2 htop
        · exact hrest i hi l (not_lt.1 htop) (Finset.mem_range.1 hl) hls
      · rfl
    rw [hzero, zero_mul, zero_mul]
  calc ∑ k ∈ s, m i k * u k
      = ∑ k ∈ s, ∑ l ∈ s, unitLower m i l * pivot m l * (unitLower m k l * u k) :=
        Finset.sum_congr rfl fun k hk => by
          rw [hentry k hk, Finset.sum_mul]
          exact Finset.sum_congr rfl fun l _ => by ring
    _ = ∑ l ∈ s, unitLower m i l * pivot m l * ∑ k ∈ s, unitLower m k l * u k := by
        rw [Finset.sum_comm]
        exact Finset.sum_congr rfl fun l _ => (Finset.mul_sum _ _ _).symm
    _ = ∑ l ∈ s, unitLower m i l * y l :=
        Finset.sum_congr rfl fun l hl => by
          rw [hu.sum_eq hl, mul_assoc, mul_div_cancel₀ _ (hp l (hs l hl).2)]
    _ = b i := hy.sum_eq hi (hs i hi).2

end PolyProjection
