import Mathlib
import PolyProjection.Proofs.Factor.Columns
import PolyProjection.Proofs.TriangularSolve

/-! The substitutions solve triangular systems. Over the active rows of a range the unit lower triangle of a factor,
and its transpose with the diagonal, make two systems with one solution each. The kernels answer with it whatever
chains of columns they solve together, and leave all other entries alone; a forward solve from a mark on completes a
solution whose first entries are there. -/

namespace PolyProjection.LdlFactor

set_option linter.unusedSectionVars false

variable {K : Type} [ExactScalar K]

/-- The active rows of a column come after it, and each row has a pivot and a state. -/
structure IsLower (f : LdlFactor K) : Prop where
  size_diag : f.diag.size = f.size
  size_active : f.active.size = f.size
  below : ∀ j c, f.columns[j]? = some c → ∀ i ∈ FactorColumn.liveRows c, j < i

/-- The active rows from `top` up to `bottom`. -/
def activeIn (f : LdlFactor K) (top bottom : ℕ) : Finset ℕ :=
  {i ∈ Finset.Ico top bottom | f.active.getD i false = true}

/-- The entry of the unit lower triangle in row `i` of column `j`. -/
def triangle (f : LdlFactor K) (i j : ℕ) : K :=
  if i = j then 1 else (f.entry i j).toOption.getD 0

/-- The values `x` solve the unit lower triangle over the rows `R` for the right-hand side `b`. -/
def SolvesLower (f : LdlFactor K) (R : Finset ℕ) (b x : ℕ → K) : Prop :=
  ∀ i ∈ R, ∑ j ∈ R, f.triangle i j * x j = b i

/-- The values `u` solve the diagonal and the transposed triangle over the rows `R` for the right-hand side `y`. -/
def SolvesUpper (f : LdlFactor K) (R : Finset ℕ) (y u : ℕ → K) : Prop :=
  ∀ j ∈ R, ∑ i ∈ R, f.diag.getD j 0 * f.triangle i j * u i = y j

/-- The active rows of column `j` below the diagonal. -/
def lowerRows (f : LdlFactor K) (j : ℕ) : List ℕ :=
  (f.columns[j]?.map FactorColumn.liveRows).getD []

variable {f : LdlFactor K} {rows : IndexList} {xs : List ℕ} {top bottom i j : ℕ}

section Shape

theorem mem_lowerRows_iff : i ∈ f.lowerRows j ↔ ∃ c, f.columns[j]? = some c ∧ i ∈ c.liveRows := by
  rw [lowerRows]
  cases f.columns[j]? with
  | none => simp
  | some c => simp

theorem IsLower.lt (hf : f.IsLower) (hi : i ∈ f.lowerRows j) : j < i := by
  obtain ⟨c, hc, hi⟩ := mem_lowerRows_iff.1 hi
  exact hf.below j c hc i hi

theorem partition_of_isPartitioned (hpart : f.isPartitioned = true) {c : FactorColumn K} (hc : f.columns[j]? = some c) :
    c.liveRows.Pairwise (· < ·) ∧ ∀ i ∈ c.liveRows, f.active.getD i false = true := by
  rw [isPartitioned, Array.all_eq_true_iff_forall_mem] at hpart
  have hall := hpart c (Array.mem_of_getElem? hc)
  simp only [Bool.and_eq_true, List.all_eq_true] at hall
  exact ⟨isAscending_iff_pairwise.1 hall.1.1.1, hall.1.2⟩

theorem active_of_lowerRows (hpart : f.isPartitioned = true) (hi : i ∈ f.lowerRows j) :
    f.active.getD i false = true := by
  obtain ⟨c, hc, hi⟩ := mem_lowerRows_iff.1 hi
  exact (partition_of_isPartitioned hpart hc).2 i hi

theorem lowerRows_ascending (hpart : f.isPartitioned = true) (j : ℕ) : (f.lowerRows j).Pairwise (· < ·) := by
  rw [lowerRows]
  cases hc : f.columns[j]? with
  | none => exact List.Pairwise.nil
  | some c => exact (partition_of_isPartitioned hpart hc).1

/-- The value of an active row of an ascending column is found. -/
theorem value?_of_mem {c : FactorColumn K} (hasc : c.liveRows.Pairwise (· < ·)) {e : ℕ × K} (he : e ∈ c.live) :
    c.value? e.1 = some e.2 := by
  rw [FactorColumn.value?]
  rw [FactorColumn.liveRows] at hasc
  generalize c.live = l at hasc he
  induction l with
  | nil => cases he
  | cons a l ih =>
      rw [List.map_cons, List.pairwise_cons] at hasc
      rw [List.find?_cons]
      rcases List.mem_cons.1 he with rfl | he
      · simp
      · have hne : a.1 ≠ e.1 := (hasc.1 e.1 (List.mem_map_of_mem he)).ne
        rw [beq_eq_false_iff_ne.2 hne]
        exact ih hasc.2 he

theorem triangle_self (f : LdlFactor K) (i : ℕ) : f.triangle i i = 1 :=
  if_pos rfl

theorem entry_of_column {c : FactorColumn K} (hc : f.columns[j]? = some c) (i : ℕ) :
    f.entry i j = .ok ((c.value? i).getD 0) := by
  rw [entry, fetch_eq_ok_iff.2 hc]
  rfl

theorem triangle_eq_zero (hne : i ≠ j) (hi : i ∉ f.lowerRows j) : f.triangle i j = 0 := by
  rw [triangle, if_neg hne]
  cases hc : f.columns[j]? with
  | none => rw [entry, fetch, hc]; rfl
  | some c =>
      have hnone : c.value? i = none := by
        rw [FactorColumn.value?, Option.map_eq_none_iff, List.find?_eq_none]
        intro e he heq
        have heq : e.1 = i := by simpa using heq
        exact hi (mem_lowerRows_iff.2 ⟨c, hc, heq ▸ List.mem_map_of_mem he⟩)
      rw [entry_of_column hc, hnone]
      rfl

/-- A factor whose columns are partitioned lists them by its entries. -/
theorem IsLower.listsColumns (hf : f.IsLower) (hpart : f.isPartitioned = true) :
    f.ListsColumns f.size f.lowerRows f.triangle (f.diag.getD · 0) where
  live j hj := by
    have hc : f.columns[j]? = some f.columns[j] := Array.getElem?_eq_getElem hj
    rw [live, fetch_of_lt hj, ok_bind, lowerRows, hc, Option.map_some, Option.getD_some]
    refine congrArg Except.ok ?_
    rw [FactorColumn.liveRows, List.map_map]
    refine (List.map_id _).symm.trans (List.map_congr_left fun e he => ?_)
    have hne : e.1 ≠ j := (hf.below j _ hc e.1 (List.mem_map_of_mem he)).ne'
    rw [Function.comp_apply, triangle, if_neg hne, entry_of_column hc,
      value?_of_mem (partition_of_isPartitioned hpart hc).1 he]
    rfl
  diag j hj := by
    have hj' : j < f.diag.size := hf.size_diag.symm ▸ hj
    rw [fetch_of_lt hj', Array.getD_eq_getD_getElem?, Array.getElem?_eq_getElem hj', Option.getD_some]
  ascending j := lowerRows_ascending hpart j
  lt j i hi := by
    refine ⟨hf.lt hi, ?_⟩
    by_contra hge
    have hact := active_of_lowerRows hpart hi
    rw [Array.getD_eq_getD_getElem?, Array.getElem?_eq_none (by rw [hf.size_active]; exact not_lt.1 hge)] at hact
    cases hact

/-- The factor of a pattern is lower triangular, whatever its entries are. -/
theorem isLower_factor (s : Fill) (act : ℕ → Bool) (l : ℕ → ℕ → K) (d : ℕ → K) (sigma : K) (w w2 : ℕ → K) :
    (s.factor act l d sigma w w2).IsLower where
  size_diag := by simp only [size, Fill.factor, size_table]
  size_active := by simp only [size, Fill.factor, size_table]
  below j c hc i hi := by
    rw [Fill.factor, getElem?_table] at hc
    split_ifs at hc
    obtain rfl := Option.some.inj hc
    rw [FactorColumn.liveRows, FactorColumn.ofRows, List.map_map] at hi
    obtain ⟨r, hr, rfl⟩ := List.mem_map.1 hi
    exact (s.lt_of_has (Fill.mem_column.1 (List.mem_of_mem_filter hr))).1

end Shape

section Systems

variable {R : Finset ℕ} {b x y u : ℕ → K}

/-- In a row of the triangle only the columns before it have entries besides the one on the diagonal. -/
theorem IsLower.sum_row (hf : f.IsLower) (hi : i ∈ R) (x : ℕ → K) :
    ∑ j ∈ R, f.triangle i j * x j = x i + ∑ j ∈ R with j < i, f.triangle i j * x j := by
  rw [← Finset.add_sum_erase R _ hi, triangle_self, one_mul]
  refine congrArg (x i + ·) (Finset.sum_subset_zero_on_sdiff (fun j hj => ?_) (fun j hj => ?_) fun _ _ => rfl).symm
  · obtain ⟨hj, hlt⟩ := Finset.mem_filter.1 hj
    exact Finset.mem_erase.2 ⟨hlt.ne, hj⟩
  · obtain ⟨hj, hnot⟩ := Finset.mem_sdiff.1 hj
    obtain ⟨hne, hj⟩ := Finset.mem_erase.1 hj
    have hle : ¬j < i := fun hlt => hnot (Finset.mem_filter.2 ⟨hj, hlt⟩)
    rw [triangle_eq_zero hne.symm fun hmem => hle (hf.lt hmem), zero_mul]

/-- In a column of the triangle only the rows after it have entries besides the one on the diagonal. -/
theorem IsLower.sum_column (hf : f.IsLower) (hj : j ∈ R) (u : ℕ → K) :
    ∑ i ∈ R, f.triangle i j * u i = u j + ∑ i ∈ R with j < i, f.triangle i j * u i := by
  rw [← Finset.add_sum_erase R _ hj, triangle_self, one_mul]
  refine congrArg (u j + ·) (Finset.sum_subset_zero_on_sdiff (fun i hi => ?_) (fun i hi => ?_) fun _ _ => rfl).symm
  · obtain ⟨hi, hlt⟩ := Finset.mem_filter.1 hi
    exact Finset.mem_erase.2 ⟨hlt.ne', hi⟩
  · obtain ⟨hi, hnot⟩ := Finset.mem_sdiff.1 hi
    obtain ⟨hne, hi⟩ := Finset.mem_erase.1 hi
    have hle : ¬j < i := fun hlt => hnot (Finset.mem_filter.2 ⟨hi, hlt⟩)
    rw [triangle_eq_zero hne fun hmem => hle (hf.lt hmem), zero_mul]

theorem SolvesLower.congr {x' : ℕ → K} (hx : f.SolvesLower R b x) (h : ∀ i ∈ R, x i = x' i) : f.SolvesLower R b x' :=
  fun i hi => (Finset.sum_congr rfl fun j hj => by rw [h j hj]).symm.trans (hx i hi)

theorem SolvesUpper.congr {u' : ℕ → K} (hu : f.SolvesUpper R y u) (h : ∀ i ∈ R, u i = u' i) : f.SolvesUpper R y u' :=
  fun j hj => (Finset.sum_congr rfl fun i hi => by rw [h i hi]).symm.trans (hu j hj)

/-- The lower system has at most one solution: each row is determined by those before it. -/
theorem SolvesLower.unique {x' : ℕ → K} (hf : f.IsLower) (hx : f.SolvesLower R b x) (hx' : f.SolvesLower R b x') :
    ∀ i ∈ R, x' i = x i := by
  intro i
  induction i using Nat.strong_induction_on with
  | _ i ih =>
      intro hi
      have hsum : ∑ j ∈ R with j < i, f.triangle i j * x' j = ∑ j ∈ R with j < i, f.triangle i j * x j :=
        Finset.sum_congr rfl fun j hj => by
          obtain ⟨hj, hlt⟩ := Finset.mem_filter.1 hj
          rw [ih j hlt hj]
      have h := hx i hi
      have h' := hx' i hi
      rw [hf.sum_row hi] at h h'
      rw [hsum, ← h] at h'
      exact add_right_cancel h'

/-- The upper system has at most one solution where no pivot is zero: each row is determined by those after it. -/
theorem SolvesUpper.unique {u' : ℕ → K} (hf : f.IsLower) (hpivot : ∀ j ∈ R, f.diag.getD j 0 ≠ 0)
    (hu : f.SolvesUpper R y u) (hu' : f.SolvesUpper R y u') : ∀ j ∈ R, u' j = u j := by
  obtain ⟨n, hn⟩ : ∃ n, ∀ j ∈ R, j < n := ⟨R.sup id + 1, fun j hj => Nat.lt_succ_of_le (Finset.le_sup (f := id) hj)⟩
  intro j
  induction hd : n - j using Nat.strong_induction_on generalizing j with
  | _ d ih =>
      intro hj
      have hjn := hn j hj
      have hsum : ∑ i ∈ R with j < i, f.triangle i j * u' i = ∑ i ∈ R with j < i, f.triangle i j * u i :=
        Finset.sum_congr rfl fun i hi => by
          obtain ⟨hi, hlt⟩ := Finset.mem_filter.1 hi
          rw [ih (n - i) (by omega) i rfl hi]
      have h := hu j hj
      have h' := hu' j hj
      simp only [mul_assoc, ← Finset.mul_sum, hf.sum_column hj] at h h'
      rw [hsum, ← h] at h'
      exact add_right_cancel (mul_left_cancel₀ (hpivot j hj) h')

end Systems

section Kernels

theorem eq_table_of_size {x : Array K} {n : ℕ} (hx : x.size = n) : x = table n (x.getD · 0) := by
  refine eq_table hx fun i hi => ?_
  rw [Array.getD_eq_getD_getElem?, Array.getElem?_eq_getElem (hx.symm ▸ hi), Option.getD_some]

/-- An entry of a table is that of an array of the same length if the function has its value. -/
theorem getElem?_table_eq {x : Array K} {n : ℕ} (hx : x.size = n) {g : ℕ → K} (hg : g i = x.getD i 0) :
    (table n g)[i]? = x[i]? := by
  rw [getElem?_table, hg]
  split_ifs with hi
  · rw [Array.getD_eq_getD_getElem?, Array.getElem?_eq_getElem (hx.symm ▸ hi), Option.getD_some]
  · rw [Array.getElem?_eq_none (by omega)]

/-- The rows of a window are the active rows of its range. -/
structure Solving (f : LdlFactor K) (rows : IndexList) (top bottom : ℕ) (inner : List ℕ) : Prop where
  lower : f.IsLower
  partitioned : f.isPartitioned = true
  window : Window rows f.size top bottom inner
  agrees : ∀ i, i ∈ inner ↔ i ∈ f.activeIn top bottom

variable {inner : List ℕ} {ξ ξ' υ : ℕ → K} {mark : ℕ}

theorem Solving.sum_inner (h : f.Solving rows top bottom inner) (g : ℕ → K) :
    (inner.map g).sum = ∑ j ∈ f.activeIn top bottom, g j := by
  rw [← List.sum_toFinset g (h.window.ascending.imp Nat.ne_of_lt)]
  refine Finset.sum_congr (Finset.ext fun j => ?_) fun _ _ => rfl
  rw [List.mem_toFinset, h.agrees]

/-- A row of a column of the range is one of the active rows of the range, unless it comes too late. -/
theorem Solving.mem_of_lowerRows (h : f.Solving rows top bottom inner) (hj : j ∈ inner) (hi : i ∈ f.lowerRows j)
    (hlt : i < bottom) : i ∈ f.activeIn top bottom :=
  Finset.mem_filter.2 ⟨Finset.mem_Ico.2 ⟨(h.window.between j hj).1.trans (h.lower.lt hi).le, hlt⟩,
    active_of_lowerRows h.partitioned hi⟩

/-- The forward solve is the solution of the lower system. -/
theorem Solving.solvesLower (h : f.Solving rows top bottom inner) :
    f.SolvesLower (f.activeIn top bottom) ξ (inner.foldl (pass f.lowerRows f.triangle bottom 0) ξ) := by
  intro i hi
  have hib : i < bottom := (Finset.mem_Ico.1 (Finset.mem_filter.1 hi).1).2
  set x := inner.foldl (pass f.lowerRows f.triangle bottom 0) ξ
  have heq : x i = ξ i - _ := foldl_pass_eq (fun j i hi => h.lower.lt hi) h.window.ascending i
  have hsum : (inner.map fun j => if i ∈ f.lowerRows j ∧ 0 ≤ i ∧ i < bottom then f.triangle i j * x j else 0).sum =
      ∑ j ∈ f.activeIn top bottom with j < i, f.triangle i j * x j := by
    rw [h.sum_inner, Finset.sum_filter]
    refine Finset.sum_congr rfl fun j _ => ?_
    by_cases hmem : i ∈ f.lowerRows j
    · rw [if_pos ⟨hmem, Nat.zero_le i, hib⟩, if_pos (h.lower.lt hmem)]
    · rw [if_neg fun hall => hmem hall.1]
      split_ifs with hlt
      · rw [triangle_eq_zero hlt.ne' hmem, zero_mul]
      · rfl
  rw [h.lower.sum_row hi, heq, hsum, sub_add_cancel]

/-- The forward solve leaves the other entries alone. -/
theorem Solving.forward_outside (h : f.Solving rows top bottom inner) (hi : i ∉ f.activeIn top bottom) :
    inner.foldl (pass f.lowerRows f.triangle bottom mark) ξ i = ξ i := by
  rw [foldl_pass_eq (fun j i hi => h.lower.lt hi) h.window.ascending i, List.sum_eq_zero, sub_zero]
  intro v hv
  obtain ⟨j, hj, rfl⟩ := List.mem_map.1 hv
  exact if_neg fun hall => hi (h.mem_of_lowerRows hj hall.1 hall.2.2)

/-- The back solve is the solution of the upper system. -/
theorem Solving.solvesUpper (h : f.Solving rows top bottom inner)
    (hpivot : ∀ i ∈ f.activeIn top bottom, f.diag.getD i 0 ≠ 0) :
    f.SolvesUpper (f.activeIn top bottom) ξ
      (inner.foldr (solveRow f.lowerRows f.triangle (f.diag.getD · 0) ξ bottom) υ) := by
  intro j hj
  set u := inner.foldr (solveRow f.lowerRows f.triangle (f.diag.getD · 0) ξ bottom) υ
  have heq : u j = ξ j / f.diag.getD j 0 - _ :=
    foldr_solveRow_eq (fun j i hi => h.lower.lt hi) h.window.ascending ((h.agrees j).2 hj)
  have hasc := lowerRows_ascending h.partitioned j
  have hsum : (((f.lowerRows j).takeWhile fun i => decide (i < bottom)).map fun i => f.triangle i j * u i).sum =
      ∑ i ∈ f.activeIn top bottom with j < i, f.triangle i j * u i := by
    rw [← List.sum_toFinset _ ((hasc.sublist (List.takeWhile_sublist _)).imp Nat.ne_of_lt)]
    refine Finset.sum_subset_zero_on_sdiff (fun i hi => ?_) (fun i hi => ?_) fun _ _ => rfl
    · obtain ⟨hmem, hlt⟩ := (mem_takeWhile_lt hasc).1 (List.mem_toFinset.1 hi)
      exact Finset.mem_filter.2 ⟨h.mem_of_lowerRows ((h.agrees j).2 hj) hmem hlt, h.lower.lt hmem⟩
    · obtain ⟨hi, hnot⟩ := Finset.mem_sdiff.1 hi
      obtain ⟨hi, hlt⟩ := Finset.mem_filter.1 hi
      have hib : i < bottom := (Finset.mem_Ico.1 (Finset.mem_filter.1 hi).1).2
      rw [triangle_eq_zero hlt.ne' fun hmem =>
        hnot (List.mem_toFinset.2 ((mem_takeWhile_lt hasc).2 ⟨hmem, hib⟩)), zero_mul]
  have hne := hpivot j hj
  simp only [mul_assoc, ← Finset.mul_sum, h.lower.sum_column hj]
  rw [heq, hsum, sub_add_cancel, mul_div_cancel₀ _ hne]

/-- The forward solve over the rows of the range. -/
theorem Solving.forward_ok (h : f.Solving rows top bottom inner) {b : Array K} (hb : b.size = f.size)
    (mark : Option ℕ) : f.forwardSolve rows b top bottom mark =
      .ok (table f.size (inner.foldl (pass f.lowerRows f.triangle bottom (mark.getD 0)) (b.getD · 0))) := by
  have hok := (h.lower.listsColumns h.partitioned).forwardSolve_ok (ξ := (b.getD · 0)) mark h.window
  rwa [← eq_table_of_size hb] at hok

/-- The back solve over the rows of the range. -/
theorem Solving.back_ok (h : f.Solving rows top bottom inner)
    (hpivot : ∀ i ∈ f.activeIn top bottom, f.diag.getD i 0 ≠ 0) {y u : Array K} (hy : y.size = f.size)
    (hu : u.size = f.size) : f.backSolve rows y u top bottom =
      .ok (table f.size (inner.foldr (solveRow f.lowerRows f.triangle (f.diag.getD · 0) (y.getD · 0) bottom)
        (u.getD · 0))) := by
  have hok := (h.lower.listsColumns h.partitioned).backSolve_ok (ξ := (y.getD · 0)) (υ := (u.getD · 0)) h.window
    fun i hi => hpivot i ((h.agrees i).1 hi)
  rwa [← eq_table_of_size hy, ← eq_table_of_size hu] at hok

/-- **The kernels compute the plain triangular solves.** Let the columns of a factor be partitioned and let an
ascending list of rows agree with its active rows from `top` up to `bottom`, where no pivot is zero. The forward solve
turns `b` into the one solution of the unit lower triangle over the active rows of the range; with a mark it does the
same from a vector that has the solution before the mark and the right-hand side from the mark on. The back solve puts
the one solution of the diagonal and the transposed triangle into `u`. Entries of other rows stay. -/
theorem substitutions_solve (hlower : f.IsLower) (hpart : f.isPartitioned = true) (hrows : rows.Holds f.size xs)
    (hxs : xs.Pairwise (· < ·)) (hbottom : bottom ≤ f.size)
    (hagrees : ∀ i, top ≤ i → i < bottom → (i ∈ xs ↔ f.active.getD i false = true))
    (hpivot : ∀ i ∈ f.activeIn top bottom, f.diag.getD i 0 ≠ 0) :
    (∀ b : Array K, b.size = f.size → ∃ x, f.forwardSolve rows b top bottom none = .ok x ∧ x.size = f.size ∧
      f.SolvesLower (f.activeIn top bottom) (b.getD · 0) (x.getD · 0) ∧
      (∀ x', f.SolvesLower (f.activeIn top bottom) (b.getD · 0) x' → ∀ i ∈ f.activeIn top bottom, x' i = x.getD i 0) ∧
      (∀ i ∉ f.activeIn top bottom, x[i]? = b[i]?) ∧
      ∀ (mark : ℕ) (b' : Array K), b'.size = f.size →
        (∀ i ∈ f.activeIn top bottom, i < mark → b'[i]? = x[i]?) →
        (∀ i ∈ f.activeIn top bottom, mark ≤ i → b'[i]? = b[i]?) →
        ∃ x', f.forwardSolve rows b' top bottom (some mark) = .ok x' ∧ x'.size = f.size ∧
          (∀ i ∈ f.activeIn top bottom, x'[i]? = x[i]?) ∧ ∀ i ∉ f.activeIn top bottom, x'[i]? = b'[i]?) ∧
    ∀ y u : Array K, y.size = f.size → u.size = f.size → ∃ u', f.backSolve rows y u top bottom = .ok u' ∧
      u'.size = f.size ∧ f.SolvesUpper (f.activeIn top bottom) (y.getD · 0) (u'.getD · 0) ∧
      (∀ v, f.SolvesUpper (f.activeIn top bottom) (y.getD · 0) v → ∀ i ∈ f.activeIn top bottom, v i = u'.getD i 0) ∧
      ∀ i ∉ f.activeIn top bottom, u'[i]? = u[i]? := by
  have h : f.Solving rows top bottom (xs.filter fun i => decide (top ≤ i) && decide (i < bottom)) :=
    ⟨hlower, hpart, Window.of_holds hrows hxs hbottom, fun i => by
      rw [List.mem_filter, activeIn, Finset.mem_filter, Finset.mem_Ico, Bool.and_eq_true, decide_eq_true_eq,
        decide_eq_true_eq]
      exact ⟨fun hi => ⟨hi.2, (hagrees i hi.2.1 hi.2.2).1 hi.1⟩, fun hi => ⟨(hagrees i hi.1.1 hi.1.2).2 hi.2, hi.1⟩⟩⟩
  set inner := xs.filter fun i => decide (top ≤ i) && decide (i < bottom)
  have hrow : ∀ i ∈ f.activeIn top bottom, i < f.size := fun i hi =>
    (Finset.mem_Ico.1 (Finset.mem_filter.1 hi).1).2.trans_le hbottom
  have hvalue : ∀ (g : ℕ → K), ∀ i ∈ f.activeIn top bottom, (table f.size g).getD i 0 = g i := fun g i hi =>
    getD_table_of_lt (hrow i hi) 0
  constructor
  · intro b hb
    have hlowerSystem := h.solvesLower (ξ := (b.getD · 0))
    refine ⟨_, h.forward_ok hb none, size_table _ _, hlowerSystem.congr fun i hi => (hvalue _ i hi).symm,
      fun x' hx' i hi => (hlowerSystem.unique hlower hx' i hi).trans (hvalue _ i hi).symm,
      fun i hi => getElem?_table_eq hb (h.forward_outside hi), fun mark b' hb' hbefore hafter => ?_⟩
    have hget : ∀ i ∈ f.activeIn top bottom, ∀ x : Array K, b'[i]? = x[i]? → b'.getD i 0 = x.getD i 0 :=
      fun i _ x hx => by rw [Array.getD_eq_getD_getElem?, hx, ← Array.getD_eq_getD_getElem?]
    refine ⟨_, h.forward_ok hb' (some mark), size_table _ _, fun i hi => ?_,
      fun i hi => getElem?_table_eq hb' (h.forward_outside hi)⟩
    rw [getElem?_table_of_lt (hrow i hi), getElem?_table_of_lt (hrow i hi)]
    refine congrArg some (foldl_pass_marked_of_mem (fun j i hi => hlower.lt hi) h.window.ascending
      (fun i hi hlt => ?_) (fun i hi hle => ?_) ((h.agrees i).2 hi))
    · have hi := (h.agrees i).1 hi
      exact (hget i hi _ (hbefore i hi hlt)).trans (hvalue _ i hi)
    · have hi := (h.agrees i).1 hi
      exact hget i hi b (hafter i hi hle)
  · intro y u hy hu
    have hupperSystem := h.solvesUpper (ξ := (y.getD · 0)) (υ := (u.getD · 0)) hpivot
    exact ⟨_, h.back_ok hpivot hy hu, size_table _ _, hupperSystem.congr fun i hi => (hvalue _ i hi).symm,
      fun v hv i hi => (hupperSystem.unique hlower hpivot hv i hi).trans (hvalue _ i hi).symm,
      fun i hi => getElem?_table_eq hu (foldr_solveRow_of_not_mem fun hmem => hi ((h.agrees i).1 hmem))⟩

/-- Three rows that make one chain. -/
def chained : LdlFactor ℚ where
  columns := #[⟨[(1, 2), (2, 1)], []⟩, ⟨[(2, 3)], []⟩, ⟨[], []⟩]
  diag := #[1, 2, 4]
  rowPattern := #[[], [0], [0, 1]]
  active := #[true, true, true]
  sigma := 1
  work := #[0, 0, 0]
  work2 := #[0, 0, 0]

/-- The range cuts the chain before its last row. -/
theorem substitutions_solve_chained : ∃ rows x u, rows.Holds 3 [0, 1, 2] ∧
    chained.forwardSolve rows #[1, 0, 5] 0 2 none = .ok x ∧ x[2]? = some 5 ∧ x.getD 1 0 = -2 ∧
    chained.backSolve rows x #[0, 0, 7] 0 2 = .ok u ∧ u[2]? = some 7 := by
  obtain ⟨rows₁, -, h₁⟩ := (IndexList.holds_empty 3).pushBack_ok (i := 0) (by decide) (by decide)
  obtain ⟨rows₂, -, h₂⟩ := h₁.pushBack_ok (i := 1) (by decide) (by decide)
  obtain ⟨rows, -, hrows⟩ := h₂.pushBack_ok (i := 2) (by decide) (by decide)
  have hlower : chained.IsLower := ⟨by decide, by decide, fun j c hc => by
    have hj : j < 3 := (Array.getElem?_eq_some_iff.1 hc).1
    interval_cases j <;> obtain rfl := Option.some.inj hc <;> decide⟩
  have hagrees : ∀ i, 0 ≤ i → i < 2 → (i ∈ [0, 1, 2] ↔ chained.active.getD i false = true) := fun i _ hi => by
    interval_cases i <;> decide
  obtain ⟨hforward, hback⟩ := substitutions_solve hlower (by decide +kernel) hrows (by decide) (by decide) hagrees
    (by decide +kernel)
  obtain ⟨x, hx, hsize, -, hunique, hrest, -⟩ := hforward #[1, 0, 5] rfl
  obtain ⟨u, hu, -, -, -, hrest'⟩ := hback x #[0, 0, 7] hsize rfl
  have hsolution := hunique (fun i => if i = 0 then 1 else -2) (by
    show ∀ i ∈ chained.activeIn 0 2, _ = _
    decide +kernel) 1 (by decide +kernel)
  exact ⟨rows, x, u, hrows, hx, hrest 2 (by decide +kernel), hsolution.symm, hu, hrest' 2 (by decide +kernel)⟩

end Kernels

end PolyProjection.LdlFactor
