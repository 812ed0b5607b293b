import Mathlib
import PolyProjection.Proofs.Factor.Normal

/-! A column of `A` enters or leaves the factored matrix: the active part of the column is the vector of the
product that is added, and the path from its first row leads to the factor of the changed matrix. -/

namespace PolyProjection

set_option linter.unusedSectionVars false

variable {K : Type} [Field K] [LinearOrder K] [IsStrictOrderedRing K]

variable {s : Fill} {a : SparseMatrix K} {free free' act : ℕ → Bool} {sigma alpha : K} {n j : ℕ} {w w2 : ℕ → K}

/-- The matrix with one column more or less. -/
theorem differsBy_column (hj : j < a.ncols) (hfree : ∀ c, c ≠ j → free' c = free c)
    (halpha : alpha = (if free' j then 1 else 0) - if free j then 1 else 0) :
    DiffersBy (normal a free act sigma) (normal a free' act sigma) 0 alpha fun i => activeCoeff a act i j := by
  intro i k _ _
  have hmem : j ∈ Finset.range a.ncols := Finset.mem_range.2 hj
  have hrest : ∀ c ∈ (Finset.range a.ncols).erase j,
      (if free' c then activeCoeff a act i c * activeCoeff a act k c else 0) =
        if free c then activeCoeff a act i c * activeCoeff a act k c else 0 := fun c hc => by
    rw [hfree c (Finset.ne_of_mem_erase hc)]
  change normal a free' act sigma i k = normal a free act sigma i k + _
  rw [normal_eq_sum, normal_eq_sum, ← Finset.add_sum_erase _ _ hmem, ← Finset.add_sum_erase _ _ hmem,
    Finset.sum_congr rfl hrest, halpha]
  split_ifs <;> ring

namespace LdlFactor

theorem scatter_table {es : List (ℕ × K)} (hes : (es.map Prod.fst).Nodup) (hn : ∀ e ∈ es, e.1 < n)
    (first : Option ℕ) :
    es.foldlM (fun (work, first) (i, v) => do
      if !(← fetch (table n act) i) then return (work, first)
      return (← store work i v, first.or (some i))) (table n w, first) =
      .ok (table n fun i => if i ∈ es.map Prod.fst ∧ act i = true then entryValue es i else w i,
        first.or ((es.map Prod.fst).filter act).head?) := by
  induction es generalizing w first with
  | nil => simp [pure, Except.pure]
  | cons e es ih =>
      rw [List.map_cons, List.nodup_cons] at hes
      have he := hn e List.mem_cons_self
      have hn' : ∀ d ∈ es, d.1 < n := fun d hd => hn d (List.mem_cons_of_mem e hd)
      rw [List.foldlM_cons]
      simp only [fetch_table he, ok_bind]
      by_cases hact : act e.1 = true
      · simp only [hact, Bool.not_true, Bool.false_eq_true, if_false, store_table _ he, ok_bind, pure_bind_ok]
        rw [ih hes.2 hn']
        refine congrArg Except.ok (Prod.ext (table_congr fun i _ => ?_) ?_)
        · simp only [entryValue_cons, List.map_cons, List.mem_cons]
          by_cases hi : i = e.1
          · rw [hi, if_neg fun h => hes.1 h.1, Function.update_self, if_pos ⟨Or.inl rfl, hact⟩, if_pos rfl]
          · simp only [hi, false_or, if_false, Function.update_of_ne hi]
        · rw [List.map_cons, List.filter_cons, if_pos hact, List.head?_cons]
          cases first <;> rfl
      · simp only [hact, Bool.not_false, if_true, pure_bind_ok]
        rw [ih hes.2 hn']
        refine congrArg Except.ok (Prod.ext (table_congr fun i _ => ?_) ?_)
        · simp only [entryValue_cons, List.map_cons, List.mem_cons]
          by_cases hi : i = e.1
          · rw [hi, if_neg fun h => hact h.2, if_neg fun h => hact h.2]
          · simp only [hi, false_or, if_false]
        · rw [List.map_cons, List.filter_cons, if_neg hact]

/-- The active part of a column in `work`, with its first row. -/
theorem scatterColumn_ok {l : ℕ → ℕ → K} {d : ℕ → K} (ha : a.Formatted) (hs : s.Covers a) (hj : j < a.ncols) :
    (s.factor act l d sigma (fun _ => 0) w2).scatterColumn a j =
      .ok (s.factor act l d sigma (fun i => activeCoeff a act i j) w2,
        (((a.columnEntries j).map Prod.fst).filter act).head?) := by
  obtain ⟨c, hc, hlist⟩ := ha.toFits.column_ok hj
  rw [scatterColumn, hc, ok_bind, ← Array.foldlM_toList, hlist]
  simp only [Fill.factor]
  rw [scatter_table (ha.nodup j) fun e he => hs.size_eq ▸ ha.row_lt j e he]
  simp only [ok_bind, Option.none_or]
  refine congrArg Except.ok (Prod.ext ?_ rfl)
  refine Fill.factor_congr (fun _ _ _ _ => rfl) (fun _ _ => rfl) (fun i _ => ?_) fun _ _ => rfl
  rw [activeCoeff, SparseMatrix.coeff]
  by_cases hact : act i = true
  · by_cases hi : i ∈ (a.columnEntries j).map Prod.fst
    · rw [if_pos ⟨hi, hact⟩, if_pos hact]
    · rw [if_neg fun h => hi h.1, if_pos hact, entryValue_of_not_mem hi]
  · rw [if_neg fun h => hact h.2, if_neg hact]

theorem mem_of_activeCoeff_ne_zero {i : ℕ} (h : activeCoeff a act i j ≠ 0) :
    i ∈ ((a.columnEntries j).map Prod.fst).filter act := by
  rw [activeCoeff] at h
  split_ifs at h with hact
  · exact List.mem_filter.2 ⟨not_not.1 fun hmem => h (SparseMatrix.coeff_of_not_mem hmem), hact⟩
  · exact absurd rfl h

/-- The addition or removal of column `j` gives the factor for the free columns with or without it. -/
theorem addColumn_ok (floor : K → K) (ha : a.Formatted) (hs : s.Covers a) (hsigma : 0 < sigma)
    (hfloor : ∀ x, sigma ≤ x → floor x = x) (hj : j < a.ncols) (hfree : ∀ c, c ≠ j → free' c = free c)
    (halpha : alpha = (if free' j then 1 else 0) - if free j then 1 else 0) :
    ∃ flops, (s.canonical a free act sigma).addColumn floor a j alpha =
      .ok (s.canonical a free' act sigma, flops) := by
  have hdiff : DiffersBy (normal a free act sigma) (normal a free' act sigma) 0 alpha _ :=
    differsBy_column hj hfree halpha
  rw [addColumn, Fill.canonical, scatterColumn_ok ha hs hj, ok_bind]
  have hagree : s.AgreesFrom act (normal a free act sigma) 0 (lower (normal a free act sigma))
      (pivot (normal a free act sigma)) := ⟨fun _ _ _ _ _ => rfl, fun _ _ _ => rfl⟩
  have hdone : s.canonical a free' act sigma = s.factor act
      (fun i c => if c < 0 then lower (normal a free act sigma) i c else lower (normal a free' act sigma) i c)
      (fun c => if c < 0 then pivot (normal a free act sigma) c else pivot (normal a free' act sigma) c) sigma
      (fun _ => 0) fun _ => 0 := by
    simp only [Nat.not_lt_zero, if_false]
    rfl
  rw [hdone]
  cases hrows : ((a.columnEntries j).map Prod.fst).filter act with
  | nil =>
      have hnone : ∀ i, activeCoeff a act i j = 0 := by
        intro i
        by_contra hi
        have hi := mem_of_activeCoeff_ne_zero hi
        rw [hrows] at hi
        cases hi
      refine ⟨0, congrArg Except.ok (Prod.ext ?_ rfl)⟩
      rw [← factor_passed_all hdiff hagree (Nat.zero_le _) fun i _ => hnone i]
      exact Fill.factor_congr (fun _ _ _ _ => rfl) (fun _ _ => rfl) (fun i _ => hnone i) fun _ _ => rfl
  | cons start rows =>
      obtain ⟨hlt, hstart, hothers⟩ := hs.live_of_first ha hrows
      have hfirst : ∀ i, activeCoeff a act i j ≠ 0 → i = start ∨ s.Live act start i := fun i hi =>
        hothers i (hrows ▸ mem_of_activeCoeff_ne_zero hi)
      have hbefore : ∀ i, 0 ≤ i → i < start → activeCoeff a act i j = 0 := by
        intro i _ hi
        by_contra hne
        rcases hfirst i hne with rfl | h
        · exact lt_irrefl _ hi
        · exact absurd (s.lt_of_has h.1).1 (by omega)
      rw [← factor_passed hdiff hagree (Nat.zero_le start) hbefore]
      simp only [List.head?_cons, rankOne, Fill.size_factor]
      exact rankOneFrom_ok floor (hs.eliminates hsigma) (fun c _ => (pivot_normal_pos hsigma c).ne')
        (fun c _ hact => floor_pivot_normal hfloor hsigma hact) (s.size + 1) 0 (by omega) hlt hstart
        (hdiff.skip (Nat.zero_le start) hbefore) (hagree.mono (Nat.zero_le start)) hfirst

end LdlFactor

end PolyProjection
