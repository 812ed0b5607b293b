import Mathlib
import PolyProjection.Proofs.Factor.Normal

/-! The factorization from scratch. Row by row, the right-hand side that is left after the elimination of the
first columns is the row of the matrix that elimination leaves, so that each row of the factor is that of the
normal matrix whatever the factor held before. -/

namespace PolyProjection

set_option linter.unusedSectionVars false

variable {K : Type} [Field K] [LinearOrder K] [IsStrictOrderedRing K]

variable {s : Fill} {a aT : SparseMatrix K} {free act : ℕ → Bool} {sigma : K} {n j k : ℕ}

theorem entryValue_filter (p : ℕ → Bool) (es : List (ℕ × K)) (i : ℕ) :
    entryValue (es.filter fun e => p e.1) i = if p i then entryValue es i else 0 := by
  induction es with
  | nil => simp
  | cons e es ih =>
      rw [List.filter_cons]
      by_cases hp : p e.1 = true
      · rw [if_pos hp, entryValue_cons, entryValue_cons, ih]
        by_cases hi : i = e.1
        · rw [if_pos hi, if_pos hi, hi, if_pos hp]
        · rw [if_neg hi, if_neg hi]
      · rw [if_neg hp, ih, entryValue_cons]
        by_cases hi : i = e.1
        · rw [hi, if_neg hp, if_neg hp]
        · rw [if_neg hi]

/-- The sum of the products of two rows over the free columns. -/
def freeProduct (a : SparseMatrix K) (free : ℕ → Bool) (i k : ℕ) : K :=
  ∑ j ∈ Finset.range a.ncols, if free j then a.coeff i j * a.coeff k j else 0

theorem normal_of_active {i : ℕ} (hi : act i = true) (hk : act k = true) :
    normal a free act sigma i k = freeProduct a free i k + if i = k then sigma else 0 := by
  rw [normal, hi, hk, Bool.and_self, if_pos rfl, freeProduct]

/-- The products of a row, added up over the entries of the other row. -/
theorem sum_entries_free (ha : a.Formatted) (hT : SparseMatrix.IsTranspose a aT) (i k : ℕ) :
    ((aT.columnEntries k).map fun e => e.2 * if free e.1 then a.coeff i e.1 else 0).sum = freeProduct a free i k := by
  rw [hT.sum_row ha k fun j => if free j then a.coeff i j else 0, freeProduct]
  refine Finset.sum_congr rfl fun j _ => ?_
  split_ifs
  · exact mul_comm _ _
  · exact mul_zero _

namespace LdlFactor

/-- A loop over the entries of a column that adds a multiple of each to its active row. -/
theorem foldlM_entries {τ : Type} (view : τ → Array K) (act : ℕ → Bool) {f : τ → ℕ × K → Checked τ} {es : List (ℕ × K)}
    (x : K) (hes : (es.map Prod.fst).Nodup)
    (hf : ∀ e ∈ es, ∀ r w, view r = table n w → ∃ r', f r e = .ok r' ∧
      view r' = table n (if act e.1 then Function.update w e.1 (w e.1 + e.2 * x) else w)) (w : ℕ → K) {r : τ}
    (hr : view r = table n w) : ∃ r', es.foldlM f r = .ok r' ∧
      view r' = table n fun i => if act i then w i + entryValue es i * x else w i := by
  induction es generalizing r w with
  | nil => exact ⟨r, rfl, hr.trans (table_congr fun i _ => by simp)⟩
  | cons e es ih =>
      rw [List.map_cons, List.nodup_cons] at hes
      have hself : entryValue es e.1 = 0 := entryValue_of_not_mem hes.1
      obtain ⟨r₁, hstep, hr₁⟩ := hf e List.mem_cons_self r w hr
      obtain ⟨r', hrest, hr'⟩ := ih hes.2 (fun d hd => hf d (List.mem_cons_of_mem e hd)) _ hr₁
      refine ⟨r', by rw [List.foldlM_cons, hstep, ok_bind, hrest], hr'.trans (table_congr fun i _ => ?_)⟩
      rw [entryValue_cons]
      by_cases hi : i = e.1
      · rw [hi, if_pos rfl, hself]
        split_ifs
        · rw [Function.update_self]
          ring
        · rfl
      · have hkeep : (if act e.1 then Function.update w e.1 (w e.1 + e.2 * x) else w) i = w i := by
          split_ifs
          · exact Function.update_of_ne hi ..
          · rfl
        rw [if_neg hi, hkeep]

theorem gather_table {es : List (ℕ × K)} (hes : (es.map Prod.fst).Nodup) (hn : ∀ e ∈ es, e.1 < n) (x : K)
    (w : ℕ → K) (flops : ℕ) :
    ∃ flops', es.foldlM (fun (y, flops) (i, aij) => do
      if !(← fetch (table n act) i) then return (y, flops)
      return (← adjust y i (· + aij * x), flops + 2)) (table n w, flops) =
      .ok (table n fun i => if act i then w i + entryValue es i * x else w i, flops') := by
  refine (foldlM_entries Prod.fst act x hes ?_ w (r := (table n w, flops)) rfl).elim fun r h =>
    ⟨r.2, h.1.trans (congrArg Except.ok (Prod.ext h.2 rfl))⟩
  rintro e he ⟨y, flops⟩ w rfl
  simp only [fetch_table (hn e he), ok_bind]
  cases act e.1 with
  | true =>
      simp only [Bool.not_true, Bool.false_eq_true, if_false, if_true, adjust_table _ (hn e he), ok_bind]
      exact ⟨_, rfl, rfl⟩
  | false => exact ⟨_, rfl, rfl⟩

/-- A loop over the entries of row `k` that adds the share of each free column adds the products with the row. -/
theorem gather_ok (ha : a.Formatted) (hT : SparseMatrix.IsTranspose a aT) {p : ℕ → Prop} [DecidablePred p]
    {f : Array K × ℕ → ℕ × K → Checked (Array K × ℕ)} (w : ℕ → K)
    (hf : ∀ e ∈ aT.columnEntries k, ∀ w flops, ∃ flops', f (table n w, flops) e =
      .ok (table n fun i => if p i then w i + e.2 * (if free e.1 then a.coeff i e.1 else 0) else w i, flops')) :
    ∃ flops, (aT.columnEntries k).foldlM f (table n w, 0) =
      .ok (table n fun i => if p i then w i + freeProduct a free i k else w i, flops) := by
  have hstart : table n w = table n fun i => if p i then
      w i + (([] : List (ℕ × K)).map fun e => e.2 * if free e.1 then a.coeff i e.1 else 0).sum else w i :=
    table_congr fun i _ => by simp
  simp only [← sum_entries_free ha hT]
  rw [hstart]
  refine foldlM_counted (fun done : List (ℕ × K) => table n fun i => if p i then
    w i + (done.map fun e => e.2 * if free e.1 then a.coeff i e.1 else 0).sum else w i) ?_
  intro done e rest flops hdone
  obtain ⟨flops', h⟩ := hf e (by rw [hdone]; simp) (fun i => if p i then
    w i + (done.map fun e => e.2 * if free e.1 then a.coeff i e.1 else 0).sum else w i) flops
  refine ⟨flops', h.trans (congrArg Except.ok (Prod.ext (table_congr fun i _ => ?_) rfl))⟩
  rw [List.map_append, List.sum_append, List.map_cons, List.map_nil, List.sum_cons, List.sum_nil, add_zero]
  split_ifs <;> ring

variable (free act) in
/-- The part up to the diagonal of row `k` of the normal matrix, without the regularization. -/
theorem gatherRow_ok (ha : a.Formatted) (hT : SparseMatrix.IsTranspose a aT) (hn : n = a.nrows) (hk : k < n)
    (w : ℕ → K) : ∃ flops, gatherRow a aT (table a.ncols free) (table n act) k (table n w) =
      .ok (table n fun i => if act i = true ∧ i ≤ k then w i + freeProduct a free i k else w i, flops) := by
  obtain ⟨c, hc, hlist⟩ := hT.fits.column_ok (j := k) (by rw [hT.ncols, ← hn]; exact hk)
  rw [gatherRow, hc, ok_bind, ← Array.foldlM_toList, hlist]
  refine gather_ok ha hT w fun e he w flops => ?_
  have hej : e.1 < a.ncols := hT.col_lt k e he
  simp only [fetch_table hej, ok_bind]
  by_cases hfree : free e.1 = true
  · obtain ⟨c, hc, hlist⟩ := ha.toFits.column_ok hej
    have hcut : (a.columnEntries e.1).takeWhile (fun d => decide (d.1 ≤ k)) =
        (a.columnEntries e.1).filter fun d => decide (d.1 ≤ k) := by
      simp only [← Nat.lt_succ_iff]
      exact takeWhile_lt_eq_filter (ha.ascending e.1) (k + 1)
    have hnodup : (((a.columnEntries e.1).filter fun d => decide (d.1 ≤ k)).map Prod.fst).Nodup :=
      (ha.nodup e.1).sublist (List.filter_sublist.map _)
    obtain ⟨flops', h⟩ := gather_table hnodup
      (fun d hd => hn ▸ ha.row_lt e.1 d (List.mem_of_mem_filter hd)) e.2 w flops
    refine ⟨flops', ?_⟩
    simp only [hfree, Bool.not_true, Bool.false_eq_true, if_false, if_true, hc, ok_bind, hlist, hcut]
    refine h.trans (congrArg Except.ok (Prod.ext (table_congr fun i _ => ?_) rfl))
    simp only [entryValue_filter fun i => decide (i ≤ k), ite_and, decide_eq_true_eq, SparseMatrix.coeff]
    split_ifs <;> ring
  · refine ⟨flops, ?_⟩
    simp only [hfree, Bool.not_false, if_true, Bool.false_eq_true, if_false, mul_zero, add_zero, ite_self]
    rfl

variable {l : ℕ → ℕ → K} {d w w2 : ℕ → K}

variable {m : ℕ → ℕ → K}

/-- What the elimination of the columns before `j` leaves of row `k` up to the diagonal. -/
def rest (m : ℕ → ℕ → K) (k j i : ℕ) : K :=
  if j ≤ i ∧ i < k then schur m j k i else 0

/-- The next column takes its share of the rest in the rows of its pattern. -/
theorem rest_succ (hm : s.Eliminates act m) (hjk : j < k) (i : ℕ) : rest m k (j + 1) i =
    if i = j then 0 else if s.has i j = true ∧ act i = true ∧ i < k then rest m k j i - lower m i j * rest m k j j
      else rest m k j i := by
  rcases Nat.lt_trichotomy i j with hij | rfl | hij
  · rw [rest, rest, if_neg (by omega), if_neg hij.ne, if_neg fun h => by have := (s.lt_of_has h.1).1; omega,
      if_neg (by omega)]
  · rw [rest, if_neg (by omega), if_pos rfl]
  · rw [if_neg hij.ne']
    by_cases hik : i < k
    · simp only [rest, hik, hjk, hij.le, Nat.succ_le_iff.2 hij, le_refl, and_self, and_true, if_true,
        schur_succ_symm hm.symm j k i]
      split_ifs with hi
      · rfl
      · rw [hm.lower_eq_zero i j hij fun h => hi ⟨h.1, h.2.1⟩, zero_mul, sub_zero]
    · rw [rest, rest, if_neg fun h => hik h.2, if_neg fun h => hik h.2.2, if_neg fun h => hik h.2]

/-- A column without an entry in row `k` leaves the row as it is. -/
theorem rest_pass (hm : s.Eliminates act m) (hk : k < s.size) (hjk : j < k) (hzero : lower m k j = 0) (i : ℕ) :
    rest m k (j + 1) i = rest m k j i ∧ schur m (j + 1) k i = schur m j k i := by
  have hleft : schur m j k j = 0 := by rw [← lower_mul_pivot (hm.pivot_ne j (hjk.trans hk)), hzero, zero_mul]
  have hkeep : schur m (j + 1) k i = schur m j k i := by rw [schur_succ_symm hm.symm, hleft, mul_zero, sub_zero]
  refine ⟨?_, hkeep⟩
  rw [rest, rest, hkeep]
  by_cases hij : i = j
  · rw [hij, hleft, ite_self, ite_self]
  · have hiff : (j ≤ i ∧ i < k) ↔ (j + 1 ≤ i ∧ i < k) := by omega
    simp only [hiff]

/-- Row `k` when the columns before `j` are eliminated: the entries of the row so far, and in `work` and the pivot
what elimination leaves of the row. -/
structure RowReached (s : Fill) (act : ℕ → Bool) (m : ℕ → ℕ → K) (sigma : K) (k j : ℕ) (r : RowState K) : Prop where
  factor_eq : r.factor = s.factor act (fun i c => if i < k ∨ i = k ∧ c < j then lower m i c else 0)
    (fun i => if i < k then pivot m i else 1) sigma (rest m k j) fun _ => 0
  pivot_eq : r.pivot = schur m j k k

/-- A column without an entry in row `k` is passed over. -/
theorem RowReached.pass {r : RowState K} (hm : s.Eliminates act m) (hk : k < s.size) (hjk : j < k)
    (hnot : ¬ (s.has k j = true ∧ act k = true ∧ act j = true)) (h : RowReached s act m sigma k j r) :
    RowReached s act m sigma k (j + 1) r := by
  have hzero := hm.lower_eq_zero k j hjk hnot
  have hkeep := rest_pass hm hk hjk hzero
  refine ⟨h.factor_eq.trans (Fill.factor_congr (fun i c _ _ => ?_) (fun _ _ => rfl) (fun i _ => (hkeep i).1.symm)
    fun _ _ => rfl), h.pivot_eq.trans (hkeep k).2.symm⟩
  by_cases hic : i = k ∧ c = j
  · rw [hic.1, hic.2, hzero, ite_self, ite_self]
  · have hiff : (i < k ∨ i = k ∧ c < j) ↔ (i < k ∨ i = k ∧ c < j + 1) := by omega
    simp only [hiff]

/-- The elimination of an entry leaves the row with one more column eliminated. -/
theorem RowReached.eliminate {r : RowState K} (hm : s.Eliminates act m) (hhas : s.has k j = true)
    (hj : act j = true) (hk : act k = true) (h : RowReached s act m sigma k j r) :
    ∃ r', LdlFactor.eliminate k r j = .ok r' ∧ RowReached s act m sigma k (j + 1) r' := by
  obtain ⟨f, p, flops⟩ := r
  obtain ⟨rfl, rfl⟩ := h
  have hlt := s.lt_of_has hhas
  have hrest : rest m k j j = schur m j k j := if_pos ⟨le_rfl, hlt.1⟩
  obtain ⟨flops', hok⟩ := eliminate_ok
    (l := fun i c => if i < k ∨ i = k ∧ c < j then lower m i c else 0) (d := fun i => if i < k then pivot m i else 1)
    (w := rest m k j) hhas hj hk (by rw [if_pos hlt.1]; exact decide_eq_true (hm.pivot_ne j (hlt.1.trans hlt.2)))
    (schur m j k k) flops
  have hentry : rest m k j j / (if j < k then pivot m j else 1) = lower m k j := by
    rw [hrest, if_pos hlt.1, lower]
  simp only [hentry] at hok
  refine ⟨_, hok, Fill.factor_congr (fun i c _ _ => ?_) (fun _ _ => rfl) (fun i _ => ?_) fun _ _ => rfl, ?_⟩
  · by_cases hic : i = k ∧ c = j
    · rw [if_pos hic, if_pos (by omega), hic.1, hic.2]
    · have hiff : (i < k ∨ i = k ∧ c < j) ↔ (i < k ∨ i = k ∧ c < j + 1) := by omega
      simp only [if_neg hic, hiff]
  · rw [rest_succ hm hlt.1]
    by_cases hi : s.has i j = true ∧ act i = true ∧ i < k
    · simp only [hi, true_or, if_true]
    · simp only [hi, if_false]
  · dsimp only
    rw [hrest, schur_succ_symm hm.symm, mul_comm]

/-- The elimination over the columns in the pattern of row `k` is that over all columns before it. -/
theorem foldlM_eliminate_ok {r : RowState K} (hm : s.Eliminates act m) (hk : k < s.size) (hact : act k = true)
    (h : RowReached s act m sigma k 0 r) :
    ∃ r', (s.row k).foldlM (LdlFactor.eliminate k) r = .ok r' ∧ RowReached s act m sigma k k r' := by
  rw [Fill.row, foldlM_filter]
  refine foldlM_range (RowReached s act m sigma k) h fun j hj r hr => ?_
  by_cases hhas : s.has k j = true
  · rw [if_pos hhas]
    cases hactj : act j with
    | true => exact hr.eliminate hm hhas hactj hact
    | false =>
        refine ⟨r, eliminate_of_inactive ?_, hr.pass hm hk hj fun h => by simp [hactj] at h⟩
        rw [hr.factor_eq, Fill.active_factor, fetch_table (hj.trans hk), hactj]
  · rw [if_neg hhas]
    exact ⟨r, rfl, hr.pass hm hk hj fun h => hhas h.1⟩

/-- The factor when the rows before `k` are computed. -/
def rowsDone (s : Fill) (a : SparseMatrix K) (free act : ℕ → Bool) (sigma : K) (k : ℕ) : LdlFactor K :=
  s.factor act (fun i c => if i < k then lower (normal a free act sigma) i c else 0)
    (fun i => if i < k then pivot (normal a free act sigma) i else 1) sigma (fun _ => 0) fun _ => 0

/-- An inactive row is computed as soon as the rows before it are. -/
theorem rowsDone_succ_of_inactive (hact : act k = false) :
    rowsDone s a free act sigma k = rowsDone s a free act sigma (k + 1) := by
  refine Fill.factor_congr (fun i c _ hi => ?_) (fun i _ => ?_) (fun _ _ => rfl) fun _ _ => rfl
  · have hne : i ≠ k := fun h => by rw [h, hact] at hi; cases hi
    have hiff : i < k ↔ i < k + 1 := by omega
    simp only [hiff]
  · rcases Nat.lt_trichotomy i k with hik | rfl | hik
    · rw [if_pos hik, if_pos (by omega)]
    · rw [if_neg (lt_irrefl i), if_pos (Nat.lt_succ_self i), pivot_of_inactive hact]
    · rw [if_neg (by omega), if_neg (by omega)]

/-- A row is computed when the elimination has reached it and its pivot is stored. -/
theorem rowsDone_succ : s.factor act
    (fun i c => if i < k ∨ i = k ∧ c < k then lower (normal a free act sigma) i c else 0)
    (Function.update (fun i => if i < k then pivot (normal a free act sigma) i else 1) k
      (pivot (normal a free act sigma) k)) sigma (rest (normal a free act sigma) k k) (fun _ => 0) =
    rowsDone s a free act sigma (k + 1) := by
  refine Fill.factor_congr (fun i c hhas _ => ?_) (fun i _ => ?_) (fun i _ => ?_) fun _ _ => rfl
  · have hlt := s.lt_of_has hhas
    have hiff : (i < k ∨ i = k ∧ c < k) ↔ i < k + 1 := by omega
    simp only [hiff]
  · rcases Nat.lt_trichotomy i k with hik | rfl | hik
    · rw [Function.update_of_ne hik.ne, if_pos hik, if_pos (by omega)]
    · rw [Function.update_self, if_pos (Nat.lt_succ_self i)]
    · rw [Function.update_of_ne hik.ne', if_neg (by omega), if_neg (by omega)]
  · rw [rest, if_neg (by omega)]

/-- The entries of a row and its rest before the first column. -/
theorem rowReached_zero (hact : act k = true) :
    RowReached s act (normal a free act sigma) sigma k 0
      ⟨s.factor act (fun i c => if i < k then lower (normal a free act sigma) i c else 0)
        (fun i => if i < k then pivot (normal a free act sigma) i else 1) sigma
        (Function.update (fun i => if act i = true ∧ i ≤ k then 0 + freeProduct a free i k else 0) k 0) fun _ => 0,
        0 + freeProduct a free k k + sigma, 0⟩ := by
  refine ⟨Fill.factor_congr (fun i c _ _ => ?_) (fun _ _ => rfl) (fun i _ => ?_) fun _ _ => rfl, ?_⟩
  · have hiff : i < k ↔ (i < k ∨ i = k ∧ c < 0) := by omega
    simp only [← hiff]
  · rw [rest]
    by_cases hik : i = k
    · rw [hik, Function.update_self, if_neg (by omega)]
    · rw [Function.update_of_ne hik]
      by_cases hi : act i = true
      · have hiff : (act i = true ∧ i ≤ k) ↔ (0 ≤ i ∧ i < k) := by
          simp only [hi, true_and]
          omega
        simp only [hiff]
        rw [zero_add, schur, normal_symm, normal_of_active hi hact, if_neg hik, add_zero]
      · rw [if_neg fun h => hi h.1, schur, (normal_of_inactive (eq_false_of_ne_true hi) (Ne.symm hik)).2, ite_self]
  · change _ = normal a free act sigma k k
    rw [zero_add, normal_of_active hact hact, if_pos rfl]

/-- One row of the factorization: each row becomes that of the factor of the normal matrix. -/
theorem factorizeRow_ok (floor : K → K) (ha : a.Formatted) (hT : SparseMatrix.IsTranspose a aT) (hs : s.Covers a)
    (hsigma : 0 < sigma) (hfloor : ∀ x, sigma ≤ x → floor x = x) (hk : k < s.size) (flops : FlopCount) :
    ∃ flops', factorizeRow floor a aT (table a.ncols free) (rowsDone s a free act sigma k, flops) k =
      .ok (rowsDone s a free act sigma (k + 1), flops') := by
  have hm : s.Eliminates act (normal a free act sigma) := hs.eliminates hsigma
  rw [factorizeRow]
  cases hact : act k with
  | false =>
      refine ⟨flops, ?_⟩
      rw [← rowsDone_succ_of_inactive hact, rowsDone]
      simp only [Fill.factor, fetch_table hk, ok_bind, hact]
      rfl
  | true =>
      rw [rowsDone]
      simp only [Fill.factor, fetch_table hk, ok_bind, hact]
      obtain ⟨aat, hgather⟩ := gatherRow_ok free act ha hT hs.size_eq hk fun _ => 0
      obtain ⟨⟨f, p, numeric⟩, helim, hf, hp⟩ := foldlM_eliminate_ok hm hk hact (rowReached_zero hact)
      dsimp only at hf hp
      subst hf hp
      rw [Fill.factor] at helim
      have hpivot : floor (schur (normal a free act sigma) k k k) = pivot (normal a free act sigma) k :=
        floor_pivot_normal hfloor hsigma hact
      simp only [Bool.not_true, Bool.false_eq_true, if_false, hgather, ok_bind, fetch_table hk, store_table _ hk,
        if_pos (And.intro hact le_rfl), helim, hpivot]
      simp only [Fill.factor, store_table _ hk, ok_bind]
      exact ⟨_, congrArg Except.ok (Prod.ext rowsDone_succ rfl)⟩

variable {act' : ℕ → Bool} {sigma' : K}

theorem rowsDone_zero : rowsDone s a free act sigma 0 =
    s.factor act (fun _ _ => 0) (fun _ => 1) sigma (fun _ => 0) fun _ => 0 := rfl

/-- The factorization of any values on the pattern, with the work vectors at rest, gives the factor of the normal
matrix. -/
theorem factorizeWith_ok (floor : K → K) (ha : a.Formatted) (hT : SparseMatrix.IsTranspose a aT) (hs : s.Covers a)
    (hsigma : 0 < sigma) (hfloor : ∀ x, sigma ≤ x → floor x = x) :
    ∃ flops, (s.factor act' l d sigma' (fun _ => 0) fun _ => 0).factorizeWith floor a aT (table a.ncols free)
      (table s.size act) sigma = .ok (s.canonical a free act sigma, flops) := by
  obtain ⟨sorted, hsorted⟩ : ∃ sorted, ({ s.factor act' l d sigma' (fun _ => 0) (fun _ => 0) with
      sigma := sigma, active := table s.size act } : LdlFactor K).resymbol = .ok (_, sorted) :=
    @resymbol_ok K _ s act' act sigma l d (fun _ => 0) fun _ => 0
  obtain ⟨r, hr, flops, hend⟩ := foldlM_range (n := s.size)
    (f := factorizeRow floor a aT (table a.ncols free))
    (fun k r => ∃ flops, r = (rowsDone s a free act sigma k, flops)) ⟨⟨0, 0⟩, rfl⟩ (by
      rintro k hk _ ⟨flops, rfl⟩
      obtain ⟨flops', h⟩ := factorizeRow_ok floor ha hT hs hsigma hfloor hk flops
      exact ⟨_, h, flops', rfl⟩)
  refine ⟨flops, ?_⟩
  rw [factorizeWith, require_of_true (by simp), ok_bind, require_of_true (by simp), ok_bind, hsorted, ok_bind]
  dsimp only
  have hsize : (rowsDone s a free act sigma 0).size = s.size := Fill.size_factor
  rw [clear_factor, ← rowsDone_zero, hsize, hr, hend, rowsDone, Fill.canonical]
  refine congrArg Except.ok (Prod.ext (Fill.factor_congr (fun i c hhas _ => ?_) (fun i hi => ?_) (fun _ _ => rfl)
    fun _ _ => rfl) rfl)
  · rw [if_pos (s.lt_of_has hhas).2]
  · rw [if_pos hi]

end LdlFactor

end PolyProjection
