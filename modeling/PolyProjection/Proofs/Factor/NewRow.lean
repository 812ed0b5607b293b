import Mathlib
import PolyProjection.Proofs.Factor.Rows

/-! The row of an inactive index enters the factor. It is eliminated against the columns before it, which stay as
they are; what the rows after it lose on the way is kept apart, and gives the column of the new row. -/

namespace PolyProjection

set_option linter.unusedSectionVars false

variable {K : Type} [Field K] [LinearOrder K] [IsStrictOrderedRing K]

variable {s : Fill} {a aT : SparseMatrix K} {free act : ℕ → Bool} {sigma : K} {n j k : ℕ}

namespace LdlFactor

variable {m : ℕ → ℕ → K} {l : ℕ → ℕ → K} {d w w2 : ℕ → K}

theorem gatherFull_table {es : List (ℕ × K)} (hes : (es.map Prod.fst).Nodup) (hn : ∀ e ∈ es, e.1 < n) (x : K) :
    es.foldlM (fun y (i, aij) => do
      if ← fetch (table n act) i then adjust y i (· + aij * x) else return y) (table n w) =
      .ok (table n fun i => if act i then w i + entryValue es i * x else w i) := by
  refine (foldlM_entries id act x hes ?_ w (r := table n w) rfl).elim fun y h => h.1.trans (congrArg Except.ok h.2)
  rintro e he y w rfl
  simp only [id, fetch_table (hn e he), ok_bind]
  cases act e.1 with
  | true =>
      simp only [if_true, adjust_table _ (hn e he)]
      exact ⟨_, rfl, rfl⟩
  | false => exact ⟨_, rfl, rfl⟩

/-- Row `k` of the normal matrix, without the regularization. -/
theorem gatherFullRow_ok (ha : a.Formatted) (hT : SparseMatrix.IsTranspose a aT) (hn : n = a.nrows) (hk : k < n)
    (w : ℕ → K) : ∃ flops, gatherFullRow a aT (table a.ncols free) (table n act) k (table n w) =
      .ok (table n fun i => if act i = true then w i + freeProduct a free i k else w i, flops) := by
  obtain ⟨c, hc, hlist⟩ := hT.fits.column_ok (j := k) (by rw [hT.ncols, ← hn]; exact hk)
  rw [gatherFullRow, hc, ok_bind, ← Array.foldlM_toList, hlist]
  refine gather_ok ha hT w fun e he w flops => ?_
  have hej : e.1 < a.ncols := hT.col_lt k e he
  simp only [fetch_table hej, ok_bind]
  by_cases hfree : free e.1 = true
  · obtain ⟨c, hc, hlist⟩ := ha.toFits.column_ok hej
    refine ⟨flops + 2 * c.size, ?_⟩
    simp only [hfree, Bool.not_true, Bool.false_eq_true, if_false, if_true, hc, ok_bind]
    rw [← Array.foldlM_toList, hlist, gatherFull_table (ha.nodup e.1) (fun d hd => hn ▸ ha.row_lt e.1 d hd) e.2,
      ok_bind]
    refine congrArg Except.ok (Prod.ext (table_congr fun i _ => ?_) rfl)
    rw [SparseMatrix.coeff, mul_comm]
  · refine ⟨flops, ?_⟩
    simp only [hfree, Bool.not_false, if_true, Bool.false_eq_true, if_false, mul_zero, add_zero, ite_self]
    rfl

/-- The new row `k` when the columns before `j` are eliminated: the entries of the row so far over the entries `l`
and `d` of the old factor, and what elimination leaves of the row; for the rows after it what it takes away is kept
apart. -/
structure NewRowReached (s : Fill) (act : ℕ → Bool) (m : ℕ → ℕ → K) (l : ℕ → ℕ → K) (d : ℕ → K) (sigma : K) (k j : ℕ)
    (r : RowState K) : Prop where
  factor_eq : r.factor = s.factor act (fun i c => if i = k ∧ c < j then lower m i c else l i c) d sigma
    (fun i => if k < i then m k i else rest m k j i) fun i => if k < i then m k i - schur m j k i else 0
  pivot_eq : r.pivot = schur m j k k

theorem NewRowReached.pass {r : RowState K} (hm : s.Eliminates act m) (hk : k < s.size) (hjk : j < k)
    (hnot : ¬ (s.has k j = true ∧ act k = true ∧ act j = true)) (hl : s.has k j = true → l k j = 0)
    (h : NewRowReached s act m l d sigma k j r) : NewRowReached s act m l d sigma k (j + 1) r := by
  have hzero := hm.lower_eq_zero k j hjk hnot
  have hkeep := rest_pass hm hk hjk hzero
  refine ⟨h.factor_eq.trans (Fill.factor_congr (fun i c hhas _ => ?_) (fun _ _ => rfl)
    (fun i _ => by rw [(hkeep i).1]) fun i _ => by rw [(hkeep i).2]), h.pivot_eq.trans (hkeep k).2.symm⟩
  by_cases hic : i = k ∧ c = j
  · obtain ⟨rfl, rfl⟩ := hic
    rw [if_neg (by omega), if_pos (by omega), hzero, hl hhas]
  · have hiff : (i = k ∧ c < j) ↔ (i = k ∧ c < j + 1) := by omega
    simp only [hiff]

theorem NewRowReached.eliminate {r : RowState K} (hm : s.Eliminates act m) (hhas : s.has k j = true)
    (hj : act j = true) (hk : act k = true) (hl : ∀ i, s.has i j = true → act i = true → i ≠ k → l i j = lower m i j)
    (hd : d j = pivot m j) (h : NewRowReached s act m l d sigma k j r) :
    ∃ r', eliminateNew k r j = .ok r' ∧ NewRowReached s act m l d sigma k (j + 1) r' := by
  obtain ⟨f, p, flops⟩ := r
  obtain ⟨rfl, rfl⟩ := h
  have hlt := s.lt_of_has hhas
  have hrest : rest m k j j = schur m j k j := if_pos ⟨le_rfl, hlt.1⟩
  obtain ⟨flops', hok⟩ := eliminateNew_ok (l := fun i c => if i = k ∧ c < j then lower m i c else l i c)
    (d := d) (w := fun i => if k < i then m k i else rest m k j i)
    hhas hj hk (decide_eq_true (hd ▸ hm.pivot_ne j (hlt.1.trans hlt.2))) (schur m j k k) flops
  have hentry : rest m k j j / d j = lower m k j := by rw [hrest, hd, lower]
  simp only [if_neg (show ¬ k < j by omega), hentry] at hok
  refine ⟨_, hok, Fill.factor_congr (fun i c _ _ => ?_) (fun _ _ => rfl) (fun i _ => ?_) fun i _ => ?_, ?_⟩
  · by_cases hic : i = k ∧ c = j
    · rw [if_pos hic, if_pos (by omega), hic.1, hic.2]
    · have hiff : (i = k ∧ c < j) ↔ (i = k ∧ c < j + 1) := by omega
      simp only [if_neg hic, hiff]
  · rw [rest_succ hm hlt.1]
    by_cases hik : k < i
    · rw [if_neg (by omega), if_neg (by omega), if_pos hik, if_pos hik]
    · simp only [if_neg hik]
      by_cases hi : s.has i j = true ∧ act i = true ∧ i < k
      · simp only [hi, and_self, if_true, hl i hi.1 hi.2.1 hi.2.2.ne, ite_self]
      · simp only [hi, if_false]
  · by_cases hik : k < i
    · simp only [hik, if_true, and_true, if_neg (show ¬ (i = k ∧ j < j) by omega), schur_succ_symm hm.symm j k i, hrest]
      split_ifs with hi
      · rw [hl i hi.1 hi.2 hik.ne']
        ring
      · rw [hm.lower_eq_zero i j (by omega) fun h => hi ⟨h.1, h.2.1⟩, zero_mul, sub_zero]
    · rw [if_neg fun h => hik h.2.2, if_neg hik, if_neg hik]
  · dsimp only
    rw [hrest, schur_succ_symm hm.symm, mul_comm]

/-- The elimination of the new row over its pattern is that over all columns before it. -/
theorem foldlM_eliminateNew_ok {r : RowState K} (hm : s.Eliminates act m) (hk : k < s.size) (hact : act k = true)
    (hl : ∀ i c, c < k → s.has i c = true → act i = true → i ≠ k → l i c = lower m i c) (hzero : ∀ c, l k c = 0)
    (hd : ∀ c < k, d c = pivot m c) (h : NewRowReached s act m l d sigma k 0 r) :
    ∃ r', (s.row k).foldlM (eliminateNew k) r = .ok r' ∧ NewRowReached s act m l d sigma k k r' := by
  rw [Fill.row, foldlM_filter]
  refine foldlM_range (NewRowReached s act m l d sigma k) h fun j hj r hr => ?_
  by_cases hhas : s.has k j = true
  · rw [if_pos hhas]
    cases hactj : act j with
    | true => exact hr.eliminate hm hhas hactj hact (fun i hi => hl i j hj hi) (hd j hj)
    | false =>
        refine ⟨r, eliminateNew_of_inactive ?_, hr.pass hm hk hj (fun h => by simp [hactj] at h) fun _ => hzero j⟩
        rw [hr.factor_eq, Fill.active_factor, fetch_table (hj.trans hk), hactj]
  · rw [if_neg hhas]
    exact ⟨r, rfl, hr.pass hm hk hj (fun h => hhas h.1) fun h => absurd h hhas⟩

/-- The entries of the new row and its rest before the first column. -/
theorem newRowReached_zero (hact : act k = true) {old : ℕ → ℕ → K} :
    NewRowReached s act (normal a free act sigma) old d sigma k 0
      ⟨s.factor act old d sigma
        (Function.update (fun i => if act i = true then 0 + freeProduct a free i k else 0) k 0) fun _ => 0,
        (if act k = true then 0 + freeProduct a free k k else 0) + sigma, n⟩ := by
  have hrow : ∀ i, i ≠ k → (if act i = true then 0 + freeProduct a free i k else 0) = normal a free act sigma k i := by
    intro i hne
    split_ifs with hi
    · rw [normal_symm, normal_of_active hi hact, if_neg hne, add_zero, zero_add]
    · rw [(normal_of_inactive (eq_false_of_ne_true hi) (Ne.symm hne)).2]
  refine ⟨Fill.factor_congr (fun i c _ _ => ?_) (fun _ _ => rfl) (fun i _ => ?_) fun i _ => ?_, ?_⟩
  · rw [if_neg (by omega)]
  · rcases Nat.lt_trichotomy i k with hik | rfl | hik
    · rw [Function.update_of_ne hik.ne, hrow i hik.ne, if_neg (by omega), rest, if_pos ⟨Nat.zero_le i, hik⟩, schur]
    · rw [Function.update_self, if_neg (lt_irrefl i), rest, if_neg (by omega)]
    · rw [Function.update_of_ne hik.ne', hrow i hik.ne', if_pos hik]
  · rw [schur, sub_self, ite_self]
  · change _ = normal a free act sigma k k
    rw [if_pos hact, zero_add, normal_of_active hact hact, if_pos rfl]

variable (free act sigma) in
/-- The rest of the new row, with what is kept apart, gives its column, and both work vectors are cleared. -/
theorem fillColumn_ok (hs : s.Covers a) (hsigma : 0 < sigma) {v : ℕ → K} : fillColumn (pivot (normal a free act sigma) k)
      (((s.column k).filter act).map fun i => (i, v i))
      (table s.size fun i => if k < i then normal a free act sigma k i else rest (normal a free act sigma) k k i)
      (table s.size fun i => if k < i then normal a free act sigma k i - schur (normal a free act sigma) k k i else 0) =
    .ok (((s.column k).filter act).map fun i => (i, lower (normal a free act sigma) i k),
      table s.size fun _ => 0, table s.size fun _ => 0) := by
  have hmem : ∀ i, i ∈ (s.column k).filter act ↔ s.Live act k i := fun _ => Fill.mem_filter_column
  -- outside of its column the new row is zero, before and after the elimination
  have hoff : ∀ i, k < i → ¬ (s.has i k = true ∧ act i = true) →
      normal a free act sigma k i = 0 ∧ schur (normal a free act sigma) k k i = 0 := by
    intro i hki hnot
    have hzero : ¬ (act k = true ∧ act i = true ∧ (s.has k i = true ∨ s.has i k = true)) := by
      rintro ⟨-, hi, hhas | hhas⟩
      · exact absurd (s.lt_of_has hhas).1 (by omega)
      · exact hnot ⟨hhas, hi⟩
    exact ⟨hs.normal_eq_zero hki.ne hzero, hs.schur_normal_eq_zero le_rfl hki.le hki.ne hzero⟩
  rw [fillColumn_table (((s.column_ascending k).filter act).imp Nat.ne_of_lt)
    (fun i hi => (Fill.column_lt i (List.mem_of_mem_filter hi)).2) (decide_eq_true (pivot_normal_pos hsigma k).ne')]
  refine congrArg Except.ok (Prod.ext (List.map_congr_left fun i hi => ?_) (Prod.ext (table_congr fun i _ => ?_)
    (table_congr fun i _ => ?_)))
  · have hki := (s.lt_of_has ((hmem i).1 hi).1).1
    rw [if_pos hki, if_pos hki, sub_sub_cancel, lower, schur_symm normal_symm]
  · split_ifs with hi hki
    · rfl
    · exact (hoff i hki fun h => hi ((hmem i).2 h)).1
    · exact if_neg (by omega)
  · split_ifs with hi hki
    · rfl
    · have hzero := hoff i hki fun h => hi ((hmem i).2 h)
      rw [hzero.1, hzero.2, sub_zero]
    · rfl

/-- The columns before `k` keep their other entries and their pivots, so with the new row in them, the new column `k`
and the updated columns behind it they are the columns of the new factor. -/
theorem factor_rowAdded {m' : ℕ → ℕ → K} {w1 w2 : ℕ → K}
    (hkeep : ∀ i c, c < k → i ≠ k → lower m i c = lower m' i c ∧ pivot m c = pivot m' c) :
    s.factor act (fun i c => if c ≤ k then (if c = k then lower m' i k else if i = k ∧ c < k then lower m' i c
        else if i = k then 0 else lower m i c) else lower m' i c)
      (fun c => if c ≤ k then Function.update (pivot m) k (pivot m' k) c else pivot m' c) sigma w1 w2 =
    s.factor act (lower m') (pivot m') sigma w1 w2 := by
  refine Fill.factor_congr (fun i c _ _ => ?_) (fun c _ => ?_) (fun _ _ => rfl) fun _ _ => rfl
  · rcases Nat.lt_trichotomy c k with hck | rfl | hck
    · rw [if_pos hck.le, if_neg hck.ne]
      by_cases hik : i = k
      · rw [if_pos ⟨hik, hck⟩]
      · rw [if_neg fun h => hik h.1, if_neg hik, (hkeep i c hck hik).1]
    · rw [if_pos le_rfl, if_pos rfl]
    · rw [if_neg (by omega)]
  · rcases Nat.lt_trichotomy c k with hck | rfl | hck
    · rw [if_pos hck.le, Function.update_of_ne hck.ne, (hkeep c c hck hck.ne).2]
    · rw [if_pos le_rfl, Function.update_self]
    · rw [if_neg (by omega)]

variable (free act) in
/-- The addition of an inactive row gives the factor with the row among the active ones. -/
theorem addRowWith_ok (floor : K → K) (ha : a.Formatted) (hT : SparseMatrix.IsTranspose a aT) (hs : s.Covers a)
    (hsigma : 0 < sigma) (hfloor : ∀ x, sigma ≤ x → floor x = x) (hk : k < s.size) (hact : act k = false) :
    ∃ flops, (s.canonical a free act sigma).addRowWith floor a aT (table a.ncols free) k =
      .ok (s.canonical a free (Function.update act k true) sigma, flops) := by
  set act' := Function.update act k true with hact'
  set m := normal a free act sigma with hmdef
  set m' := normal a free act' sigma with hmdef'
  have hother : ∀ i, i ≠ k → act i = act' i := fun i hi => (Function.update_of_ne hi ..).symm
  have hself : act' k = true := Function.update_self ..
  have hm : s.Eliminates act' m := Fill.Eliminates.mono (hs.eliminates hsigma) fun i hi => by
    by_cases hik : i = k
    · rw [hik, hself]
    · rw [← hother i hik, hi]
  have hm' : s.Eliminates act' m' := hs.eliminates hsigma
  have hkeep : ∀ i c, c < k → i ≠ k → lower m i c = lower m' i c ∧ pivot m c = pivot m' c := fun i c hc hi =>
    lower_normal_congr (fun i hi => (hother i hi).symm) hc hi
  have hpivot : floor (pivot m' k) = pivot m' k := floor_pivot_normal hfloor hsigma hself
  obtain ⟨gathered, hgather⟩ := gatherFullRow_ok ha hT hs.size_eq hk fun _ => 0
  obtain ⟨⟨f, p, flops⟩, helim, hf, hp⟩ := foldlM_eliminateNew_ok (l := fun i c => if i = k then 0 else lower m i c)
    (d := pivot m) hm' hk hself (fun i c hc _ _ hi => by rw [if_neg hi, (hkeep i c hc hi).1]) (fun c => if_pos rfl)
    (fun c hc => (hkeep c c hc hc.ne).2) (newRowReached_zero (n := gathered) hself)
  dsimp only at hf hp
  rw [← pivot] at hp
  subst hf hp
  have hdiff : DiffersBy m m' (k + 1) (-pivot m' k) fun i =>
      if i ∈ (s.column k).filter act' then lower m' i k else 0 :=
    differsBy_live hm' (differsBy_row hsigma hother hact).symm
  obtain ⟨more, hlive⟩ := addLiveColumn_ok sigma (fun _ => 0) floor hm
    (fun c _ => (pivot_normal_pos hsigma c).ne')
    (fun c _ hc => floor_pivot_normal hfloor hsigma hc) hk
    (l := fun i c => if c = k then lower m' i k else if i = k ∧ c < k then lower m' i c else if i = k then 0
      else lower m i c)
    (d := Function.update (pivot m) k (pivot m' k)) (by simpa only [if_true] using hdiff)
    ⟨fun i c hc hhas _ => by
        have hlt := s.lt_of_has hhas
        rw [if_neg (by omega), if_neg (by omega), if_neg (by omega)],
      fun c hc _ => by rw [Function.update_of_ne (by omega)]⟩
  have hrevive := reviveRow_ok sigma (lower m) (pivot m) (fun _ => 0) (fun _ => 0) hk hact (table s.size act')
  have hfill := fillColumn_ok free act' sigma (k := k) hs hsigma
    (v := fun i => if i = k ∧ k < k then lower m' i k else if i = k then 0 else lower m i k)
  refine ⟨flops + 3 * (((s.column k).filter act').map fun i => (i, lower m' i k)).length + more, ?_⟩
  rw [addRowWith, Fill.canonical]
  refine bind_eq_ok_iff.2 ⟨_, fetch_table hk, bind_eq_ok_iff.2 ⟨_, require_of_true (by rw [hact]; rfl), ?_⟩⟩
  refine bind_eq_ok_iff.2 ⟨_, store_table true hk, bind_eq_ok_iff.2 ⟨_, fetch_table hk, ?_⟩⟩
  refine bind_eq_ok_iff.2 ⟨_, hrevive, bind_eq_ok_iff.2 ⟨_, hgather, ?_⟩⟩
  refine bind_eq_ok_iff.2 ⟨_, fetch_table hk, bind_eq_ok_iff.2 ⟨_, store_table 0 hk, ?_⟩⟩
  refine bind_eq_ok_iff.2 ⟨_, helim, ?_⟩
  dsimp only
  rw [hpivot]
  refine bind_eq_ok_iff.2 ⟨_, fetch_table hk, bind_eq_ok_iff.2 ⟨_, hfill, ?_⟩⟩
  refine bind_eq_ok_iff.2 ⟨_, store_table _ hk, bind_eq_ok_iff.2 ⟨_, store_table _ hk, ?_⟩⟩
  refine bind_eq_ok_iff.2 ⟨_, Eq.trans ?_ hlive, ?_⟩
  · refine congrArg (fun f => addLiveColumn floor f k (-pivot m' k)) ?_
    simp only [Fill.factor, LdlFactor.mk.injEq, and_self, and_true]
    exact Fill.table_update_column s.size k fun i _ => lower m' i k
  · exact congrArg Except.ok (Prod.ext (factor_rowAdded hkeep) rfl)

end LdlFactor

end PolyProjection
