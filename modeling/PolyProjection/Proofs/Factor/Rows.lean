import Mathlib
import PolyProjection.Proofs.Factor.Numeric

/-! A row becomes active or inactive. Both matrices have the same columns before the row, and after its elimination
they differ by the product of its column in the factor; the entries of the row itself are those of its elimination
against the columns before it. -/

namespace PolyProjection

set_option linter.unusedSectionVars false

variable {K : Type} [Field K] [LinearOrder K] [IsStrictOrderedRing K]

variable {s : Fill} {a aT : SparseMatrix K} {free act act' : ℕ → Bool} {sigma alpha : K} {n j k : ℕ}

section Matrix

/-- Rows other than `k` do not see whether row `k` is active. -/
theorem normal_congr_of_ne (hact : ∀ i, i ≠ k → act' i = act i) {i j : ℕ} (hi : i ≠ k) (hj : j ≠ k) :
    normal a free act sigma i j = normal a free act' sigma i j := by
  rw [normal, normal, hact i hi, hact j hj]

/-- Without row `k` the product of its column in the factor is not taken away from the rows after it. -/
theorem differsBy_row (hsigma : 0 < sigma) (hact : ∀ i, i ≠ k → act' i = act i) (hk : act' k = false) :
    DiffersBy (normal a free act sigma) (normal a free act' sigma) (k + 1) (pivot (normal a free act sigma) k)
      fun i => lower (normal a free act sigma) i k := by
  intro i j hi hj
  have hne : pivot (normal a free act sigma) k ≠ 0 := (pivot_normal_pos hsigma k).ne'
  have hcongr : schur (normal a free act sigma) k i j = schur (normal a free act' sigma) k i j :=
    schur_congr (fun i j hi hj => normal_congr_of_ne hact hi hj) le_rfl (by omega) (by omega)
  have hzero : schur (normal a free act' sigma) k k j = 0 :=
    ((schur_diagonal_of_apart (fun j hj => normal_of_inactive hk hj) le_rfl).2 j (by omega)).1
  rw [schur_succ, schur_succ, hzero, mul_zero, sub_zero, ← hcongr, schur_symm normal_symm k k j,
    ← lower_mul_pivot hne j]
  ring

/-- The columns before row `k` are the same in the other rows. -/
theorem lower_normal_congr (hact : ∀ i, i ≠ k → act' i = act i) {i c : ℕ} (hc : c < k) (hi : i ≠ k) :
    lower (normal a free act sigma) i c = lower (normal a free act' sigma) i c ∧
      pivot (normal a free act sigma) c = pivot (normal a free act' sigma) c :=
  lower_congr (fun _ _ hi hj => normal_congr_of_ne hact hi hj) hc hi

end Matrix

theorem Fill.Eliminates.mono {m : ℕ → ℕ → K} (h : s.Eliminates act m) (hact : ∀ i, act i = true → act' i = true) :
    s.Eliminates act' m :=
  ⟨h.symm, h.pivot_ne, fun i j hij hnot => h.lower_eq_zero i j hij fun hall =>
    hnot ⟨hall.1, hact i hall.2.1, hact j hall.2.2⟩⟩

namespace LdlFactor

variable {m m' : ℕ → ℕ → K} {l l' : ℕ → ℕ → K} {d w w2 : ℕ → K}

/-- The column of a factor is zero outside of its active rows. -/
theorem differsBy_live {m₁ m₂ : ℕ → ℕ → K} (hm : s.Eliminates act m)
    (h : DiffersBy m₁ m₂ (k + 1) alpha fun i => lower m i k) :
    DiffersBy m₁ m₂ (k + 1) alpha fun i => if i ∈ (s.column k).filter act then lower m i k else 0 := by
  refine h.congr fun i hi => ?_
  split_ifs with hmem
  · rfl
  · exact (hm.lower_eq_zero i k (by omega) fun h => hmem (Fill.mem_filter_column.2 ⟨h.1, h.2.1⟩)).symm

variable (sigma w2) in
/-- The product of a column of the factor turns the columns after it into those of the new matrix. -/
theorem addLiveColumn_ok (floor : K → K) (hm : s.Eliminates act m) (hp' : ∀ c < s.size, pivot m' c ≠ 0)
    (hfloor : ∀ c, k < c → act c = true → floor (pivot m' c) = pivot m' c) (hk : k < s.size)
    (hdiff : DiffersBy m m' (k + 1) alpha fun i => if i ∈ (s.column k).filter act then l i k else 0)
    (hagree : s.AgreesFrom act m (k + 1) l d) :
    ∃ flops, addLiveColumn floor (s.factor act l d sigma (fun _ => 0) w2) k alpha =
      .ok (s.factor act (fun i c => if c ≤ k then l i c else lower m' i c)
        (fun c => if c ≤ k then d c else pivot m' c) sigma (fun _ => 0) w2, flops) := by
  simp only [addLiveColumn_eq floor hk, ← Nat.lt_succ_iff]
  cases hrows : (s.column k).filter act with
  | nil =>
      simp only [hrows, List.not_mem_nil, if_false] at hdiff
      exact ⟨0, congrArg Except.ok (Prod.ext (factor_passed_all hdiff hagree hk (fun _ _ => rfl) _) rfl)⟩
  | cons first rows =>
      rw [hrows] at hdiff
      obtain ⟨hfirst, hlater⟩ := Fill.live_of_first hrows
      have hlt := s.lt_of_has hfirst.1
      have hlive : ∀ i, i ∈ first :: rows → i = first ∨ s.Live act first i := fun i hi =>
        hlater i (Fill.mem_filter_column.1 (hrows ▸ hi))
      have hbefore : ∀ i, k + 1 ≤ i → i < first → (if i ∈ first :: rows then l i k else 0) = 0 := fun i _ hi =>
        if_neg fun hmem => (hlive i hmem).elim hi.ne fun h => absurd (s.lt_of_has h.1).1 (by omega)
      rw [← factor_passed hdiff hagree hlt.1 hbefore]
      rw [List.head?_cons, Option.elim_some, rankOne, Fill.size_factor]
      exact rankOneFrom_ok floor hm hp' (fun c hc => hfloor c (by omega)) (s.size + 1) 0 (by omega) hlt.2 hfirst.2
        (hdiff.skip hlt.1 hbefore) (hagree.mono hlt.1) fun i hi => hlive i (not_not.1 fun hmem => hi (if_neg hmem))

variable (free act) in
/-- The removal of an active row gives the factor over the other active rows. -/
theorem deleteRowWith_ok (floor : K → K) (hs : s.Covers a) (hsigma : 0 < sigma)
    (hfloor : ∀ x, sigma ≤ x → floor x = x) (hk : k < s.size) (hact : act k = true) :
    ∃ flops, (s.canonical a free act sigma).deleteRowWith floor k =
      .ok (s.canonical a free (Function.update act k false) sigma, flops) := by
  set act' := Function.update act k false with hact'
  have hm : s.Eliminates act (normal a free act sigma) := hs.eliminates hsigma
  have hother : ∀ i, i ≠ k → act' i = act i := fun i hi => Function.update_of_ne hi ..
  have hself : act' k = false := Function.update_self ..
  obtain ⟨flops, hlive⟩ := addLiveColumn_ok sigma (fun _ => 0) floor hm
    (fun c _ => (pivot_normal_pos hsigma c).ne')
    (fun c hc hact => floor_pivot_normal hfloor hsigma ((hother c hc.ne').trans hact)) hk
    (differsBy_live hm (differsBy_row hsigma hother hself))
    ⟨fun _ _ _ _ _ => rfl, fun _ _ _ => rfl⟩
  refine ⟨flops + (s.row k).length, ?_⟩
  rw [deleteRowWith, Fill.canonical]
  simp only [Fill.active_factor, Fill.diag_factor, fetch_table hk, ok_bind, require_of_true hact, hlive,
    clearColumn_ok hk, Fill.rowPattern_factor, store_table _ hk]
  have hkill := killRow_ok sigma (fun i c => if c = k then 0 else if c ≤ k then lower (normal a free act sigma) i c
      else lower (normal a free act' sigma) i c)
    (Function.update (fun c => if c ≤ k then pivot (normal a free act sigma) c
      else pivot (normal a free act' sigma) c) k 1) (fun _ => 0) (fun _ => 0) hk hact (table s.size act')
  simp only [Fill.factor] at hkill ⊢
  rw [hkill, ok_bind]
  refine congrArg Except.ok (Prod.ext (Fill.factor_congr (fun i c hhas hi => ?_) (fun c _ => ?_) (fun _ _ => rfl)
    fun _ _ => rfl) rfl)
  · have hik : i ≠ k := fun h => by rw [h, Function.update_self] at hi; cases hi
    rcases Nat.lt_trichotomy c k with hck | rfl | hck
    · rw [if_neg hck.ne, if_pos hck.le, (lower_normal_congr hother hck hik).1]
    · rw [if_pos rfl, lower_of_inactive hself hik]
    · rw [if_neg hck.ne', if_neg (by omega)]
  · rcases Nat.lt_trichotomy c k with hck | rfl | hck
    · rw [Function.update_of_ne hck.ne, if_pos hck.le, (lower_normal_congr hother hck hck.ne).2]
    · rw [Function.update_self, pivot_of_inactive hself]
    · rw [Function.update_of_ne hck.ne', if_neg (by omega)]

end LdlFactor

end PolyProjection
