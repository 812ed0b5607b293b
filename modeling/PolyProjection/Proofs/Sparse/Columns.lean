import Mathlib
import PolyProjection.Proofs.Sorted
import PolyProjection.Proofs.Vector
import PolyProjection.Sparse.Format

/-! The entries of a well-formed matrix. A column is an ascending list of rows with values; the coefficient at a
row and a column is the stored value, and zero outside the pattern. -/

namespace PolyProjection

set_option linter.unusedSectionVars false

section Lookup

variable {α : Type} [Zero α]

/-- The value that a list of indexed values has at an index, zero where it has none. -/
def lookupD (l : List (Nat × α)) (i : Nat) : α :=
  (l.lookup i).getD 0

theorem lookupD_cons (e : Nat × α) (l : List (Nat × α)) (i : Nat) :
    lookupD (e :: l) i = if i = e.1 then e.2 else lookupD l i := by
  rw [lookupD, lookupD, List.lookup_cons]
  by_cases h : i = e.1
  · simp [h]
  · rw [beq_eq_false_iff_ne.2 h, if_neg h]

theorem lookupD_of_not_mem {l : List (Nat × α)} {i : Nat} (h : i ∉ l.map Prod.fst) : lookupD l i = 0 := by
  induction l with
  | nil => rfl
  | cons e l ih =>
      rw [List.map_cons, List.mem_cons, not_or] at h
      rw [lookupD_cons, if_neg h.1, ih h.2]

theorem lookupD_of_mem {l : List (Nat × α)} {e : Nat × α} (hl : (l.map Prod.fst).Nodup) (he : e ∈ l) :
    lookupD l e.1 = e.2 := by
  induction l with
  | nil => cases he
  | cons d l ih =>
      rw [List.map_cons, List.nodup_cons] at hl
      rw [lookupD_cons]
      rcases List.mem_cons.1 he with rfl | he
      · rw [if_pos rfl]
      · have hne : e.1 ≠ d.1 := fun h => hl.1 (h ▸ List.mem_map_of_mem he)
        rw [if_neg hne, ih hl.2 he]

/-- A sum over the entries of a list is one over all indices. -/
theorem sum_lookupD {R : Type} [CommRing R] {l : List (Nat × R)} {m : Nat} (hl : (l.map Prod.fst).Nodup)
    (hm : ∀ e ∈ l, e.1 < m) (x : Nat → R) :
    (l.map fun e => e.2 * x e.1).sum = ∑ i ∈ Finset.range m, lookupD l i * x i := by
  induction l with
  | nil => simp [lookupD]
  | cons e l ih =>
      rw [List.map_cons, List.nodup_cons] at hl
      have hsplit : ∀ i, lookupD (e :: l) i * x i = (if i = e.1 then e.2 * x i else 0) + lookupD l i * x i := by
        intro i
        rw [lookupD_cons]
        by_cases hi : i = e.1
        · rw [if_pos hi, if_pos hi, hi, lookupD_of_not_mem hl.1, zero_mul, add_zero]
        · rw [if_neg hi, if_neg hi, zero_add]
      rw [List.map_cons, List.sum_cons, ih hl.2 fun d hd => hm d (List.mem_cons_of_mem e hd),
        Finset.sum_congr rfl fun i _ => hsplit i, Finset.sum_add_distrib, Finset.sum_ite_eq',
        if_pos (Finset.mem_range.2 (hm e List.mem_cons_self))]

/-- A loop that adds up the products of the entries with a vector. -/
theorem foldlM_dot_getD {R : Type} [RingScalar R] {l : List (Nat × R)} {x : Array R} (hx : ∀ e ∈ l, e.1 < x.size)
    (s : R) :
    l.foldlM (fun s e => return s + e.2 * (← fetch x e.1)) s =
      .ok (s + (l.map fun e => e.2 * x.getD e.1 0).sum) := by
  induction l generalizing s with
  | nil => rw [List.foldlM_nil, pure_eq_ok_iff, List.map_nil, List.sum_nil, add_zero]
  | cons e l ih =>
      rw [List.foldlM_cons, fetch_getD (hx e List.mem_cons_self) 0, ok_bind, pure_bind_ok,
        ih fun d hd => hx d (List.mem_cons_of_mem e hd), List.map_cons, List.sum_cons, add_assoc]

end Lookup

section Entries

variable {K : Type} [Field K] [LinearOrder K] [IsStrictOrderedRing K]

/-- The value that a list of indexed values has at an index. -/
def entryValue (l : List (Nat × K)) (i : Nat) : K :=
  (l.lookup i).getD 0

@[simp] theorem entryValue_nil (i : Nat) : entryValue ([] : List (Nat × K)) i = 0 := rfl

theorem entryValue_cons (e : Nat × K) (l : List (Nat × K)) (i : Nat) :
    entryValue (e :: l) i = if i = e.1 then e.2 else entryValue l i :=
  lookupD_cons e l i

theorem entryValue_of_not_mem {l : List (Nat × K)} {i : Nat} (h : i ∉ l.map Prod.fst) : entryValue l i = 0 :=
  lookupD_of_not_mem h

theorem entryValue_of_mem {l : List (Nat × K)} {e : Nat × K} (hl : (l.map Prod.fst).Nodup) (he : e ∈ l) :
    entryValue l e.1 = e.2 :=
  lookupD_of_mem hl he

theorem sum_entries {l : List (Nat × K)} {m : Nat} (hl : (l.map Prod.fst).Nodup) (hm : ∀ e ∈ l, e.1 < m)
    (x : Nat → K) : (l.map fun e => e.2 * x e.1).sum = ∑ i ∈ Finset.range m, entryValue l i * x i :=
  sum_lookupD hl hm x

theorem getD_eq_coord (x : Array K) (i : Nat) : x.getD i 0 = coord x i :=
  Array.getD_eq_getD_getElem?

/-- A fold that reads a vector at the entries of a list adds up the products. -/
theorem foldlM_dot {l : List (Nat × K)} {x : Array K} (hx : ∀ e ∈ l, e.1 < x.size) (s : K) :
    l.foldlM (fun s e => return s + e.2 * (← fetch x e.1)) s =
      .ok (s + (l.map fun e => e.2 * coord x e.1).sum) := by
  simp only [← getD_eq_coord]
  exact foldlM_dot_getD hx s

end Entries

namespace SparseMatrix

section Format

variable {α : Type}

/-- The entries of column `j`, none where the stored ranges do not fit. -/
def columnEntries (a : SparseMatrix α) (j : Nat) : List (Nat × α) :=
  match a.column j with
  | .ok c => c.toList
  | .error _ => []

/-- The position at which column `j` begins. -/
def start (a : SparseMatrix α) (j : Nat) : Nat :=
  a.colStart[j]?.getD 0

/-- The parts of a matrix fit together: its columns have successive ranges of the positions. -/
structure Fits (a : SparseMatrix α) : Prop where
  size_values : a.values.size = a.rowIndex.size
  size_colStart : a.colStart.size = a.ncols + 1
  start_zero : a.start 0 = 0
  start_mono : ∀ j < a.ncols, a.start j ≤ a.start (j + 1)
  start_last : a.start a.ncols = a.rowIndex.size

variable {a : SparseMatrix α}

theorem Fits.fetch_start (h : a.Fits) {j : Nat} (hj : j ≤ a.ncols) : fetch a.colStart j = .ok (a.start j) := by
  have hlt : j < a.colStart.size := by rw [h.size_colStart]; omega
  rw [fetch_of_lt hlt, start, Array.getElem?_eq_getElem hlt, Option.getD_some]

theorem Fits.start_le (h : a.Fits) {i j : Nat} (hij : i ≤ j) (hj : j ≤ a.ncols) : a.start i ≤ a.start j := by
  induction j with
  | zero => rw [Nat.le_zero.1 hij]
  | succ j ih =>
      rcases Nat.lt_or_ge i (j + 1) with hlt | hge
      · exact le_trans (ih (by omega) (by omega)) (h.start_mono j (by omega))
      · rw [show i = j + 1 by omega]

theorem Fits.start_le_size (h : a.Fits) {j : Nat} (hj : j ≤ a.ncols) : a.start j ≤ a.rowIndex.size := by
  rw [← h.start_last]
  exact h.start_le hj le_rfl

theorem Fits.column_eq (h : a.Fits) {j : Nat} (hj : j < a.ncols) :
    a.column j = .ok ((a.rowIndex.zip a.values).extract (a.start j) (a.start (j + 1))) := by
  have hmono := h.start_mono j hj
  have hend := h.start_le_size (j := j + 1) hj
  rw [column, h.fetch_start hj.le, h.fetch_start (j := j + 1) hj]
  simp only [ok_bind, slice]
  rw [if_pos ⟨hmono, hend⟩, if_pos ⟨hmono, h.size_values.symm ▸ hend⟩, Array.zip, Array.extract_zipWith]
  rfl

/-- The entries of a column are the same whether or not its range is tested first. -/
theorem Fits.entries_eq (h : a.Fits) {j : Nat} (hj : j < a.ncols) : a.entries j = a.column j := by
  have hmono := h.start_mono j hj
  rw [entries, h.fetch_start hj.le, h.fetch_start (j := j + 1) hj]
  simp only [ok_bind]
  split
  · rename_i hle
    rw [h.column_eq hj, show a.start (j + 1) = a.start j by omega]
    simp [pure, Except.pure]
  · rw [column, h.fetch_start hj.le, h.fetch_start (j := j + 1) hj]
    rfl

theorem Fits.column_ok (h : a.Fits) {j : Nat} (hj : j < a.ncols) :
    ∃ c, a.column j = .ok c ∧ c.toList = a.columnEntries j := by
  refine ⟨_, h.column_eq hj, ?_⟩
  rw [columnEntries, h.column_eq hj]

theorem Fits.entries_ok (h : a.Fits) {j : Nat} (hj : j < a.ncols) :
    ∃ c, a.entries j = .ok c ∧ c.toList = a.columnEntries j := by
  rw [h.entries_eq hj]
  exact h.column_ok hj

theorem Fits.columnEntries_eq (h : a.Fits) {j : Nat} (hj : j < a.ncols) :
    a.columnEntries j = ((a.rowIndex.zip a.values).toList.take (a.start (j + 1))).drop (a.start j) := by
  rw [columnEntries, h.column_eq hj]
  simp only [Array.toList_extract, List.extract_eq_take_drop]
  rw [List.drop_take]

theorem columnEntries_of_ok {j : Nat} {c : Array (Nat × α)} (h : a.column j = .ok c) :
    a.columnEntries j = c.toList := by
  rw [columnEntries, h]

/-- The columns in order are all entries in the order of their positions. -/
theorem Fits.flatMap_columnEntries (h : a.Fits) {n : Nat} (hn : n ≤ a.ncols) :
    (List.range n).flatMap a.columnEntries = (a.rowIndex.zip a.values).toList.take (a.start n) := by
  induction n with
  | zero => simp [h.start_zero]
  | succ n ih =>
      have hmono := h.start_mono n hn
      rw [List.range_succ, List.flatMap_append, ih (by omega), List.flatMap_singleton,
        h.columnEntries_eq hn]
      have hsplit := List.take_append_drop (a.start n)
        ((a.rowIndex.zip a.values).toList.take (a.start (n + 1)))
      rwa [List.take_take, min_eq_left hmono] at hsplit

theorem Fits.start_eq (h : a.Fits) {n : Nat} (hn : n ≤ a.ncols) :
    a.start n = ((List.range n).flatMap a.columnEntries).length := by
  have hle := h.start_le_size hn
  rw [h.flatMap_columnEntries hn, List.length_take, Array.length_toList, Array.size_zip, h.size_values, min_self,
    min_eq_left hle]

theorem columnEntries_of_le (ha : a.Fits) {j : Nat} (hj : a.ncols ≤ j) : a.columnEntries j = [] := by
  have hsize : a.colStart.size ≤ j + 1 := by rw [ha.size_colStart]; omega
  have hnone : fetch a.colStart (j + 1) = .error .outOfRange := by
    rw [fetch, Array.getElem?_eq_none hsize]
  rw [columnEntries, column, hnone]
  cases fetch a.colStart j <;> rfl

theorem map_fst_columnEntries (ha : a.Fits) {j : Nat} (hj : j < a.ncols) :
    (a.columnEntries j).map Prod.fst = a.columnRows j := by
  have hzip : (a.rowIndex.zip a.values).toList.map Prod.fst = a.rowIndex.toList := by
    rw [Array.toList_zip, List.map_fst_zip]
    simp [ha.size_values]
  rw [ha.columnEntries_eq hj, List.map_drop, List.map_take, hzip, columnRows, Array.toList_extract,
    List.extract_eq_take_drop, List.drop_take]
  simp [start]

/-- What the test of the format asks for. -/
theorem of_check [Scalar α] (h : a.check = .ok ()) : a.rowIndex.size = a.values.size ∧
    (a.colStart.size = a.ncols + 1 ∧ a.colStart[a.ncols]? = some a.rowIndex.size) ∧
      (a.colStart[0]? = some 0 ∧ a.colStart.toList.IsChain (· ≤ ·)) ∧ (∀ i ∈ a.rowIndex, i < a.nrows) ∧
        (∀ j < a.ncols, isAscending (a.columnRows j) = true) ∧ ∀ v ∈ a.values, Scalar.isFinite v = true := by
  unfold check at h
  split_ifs at h with hsize hstart hmono hrows hsorted hfinite
  rw [not_or, not_not, not_not] at hstart
  rw [not_or, not_not] at hmono
  rw [Bool.not_eq_true, Bool.not_eq_false', Array.all_eq_true_iff_forall_mem] at hrows hfinite
  rw [Bool.not_eq_true, Bool.not_eq_false', List.all_eq_true] at hsorted
  refine ⟨not_not.1 hsize, hstart, ⟨hmono.1, ?_⟩, ?_, fun j hj => hsorted j (List.mem_range.2 hj), hfinite⟩
  · rw [← isNondecreasing_iff]
    simpa using hmono.2
  · intro i hi
    simpa using hrows i hi

theorem fits_of_check [Scalar α] (h : a.check = .ok ()) : a.Fits := by
  obtain ⟨hsize, hstart, ⟨hzero, hchain⟩, -⟩ := of_check h
  refine ⟨hsize.symm, hstart.1, by rw [start, hzero, Option.getD_some], ?_, by rw [start, hstart.2, Option.getD_some]⟩
  intro j hj
  have hj1 : j + 1 < a.colStart.size := by omega
  have hle := List.isChain_iff_getElem.1 hchain j (by simpa using hj1)
  rw [start, start, Array.getElem?_eq_getElem hj1, Array.getElem?_eq_getElem (by omega)]
  simpa using hle

/-- The columns list rows of the matrix. -/
theorem row_lt_of_check [Scalar α] (h : a.check = .ok ()) (j : Nat) : ∀ e ∈ a.columnEntries j, e.1 < a.nrows := by
  intro e he
  have hfits := fits_of_check h
  obtain ⟨-, -, -, hrows, -⟩ := of_check h
  rcases Nat.lt_or_ge j a.ncols with hj | hj
  · have hmap : e.1 ∈ (a.columnEntries j).map Prod.fst := List.mem_map_of_mem he
    rw [map_fst_columnEntries hfits hj, columnRows, Array.toList_extract] at hmap
    exact hrows e.1 (Array.mem_toList_iff.1 (List.mem_of_mem_drop (List.mem_of_mem_take hmap)))
  · rw [columnEntries_of_le hfits hj] at he
    cases he

/-- A well-formed matrix: its parts fit together, and each column lists rows of the matrix in ascending order. -/
structure Formatted (a : SparseMatrix α) : Prop extends a.Fits where
  row_lt : ∀ j, ∀ e ∈ a.columnEntries j, e.1 < a.nrows
  ascending : ∀ j, ((a.columnEntries j).map Prod.fst).Pairwise (· < ·)

/-- A matrix that passes the test of its format is well formed. -/
theorem formatted_of_check [Scalar α] (h : a.check = .ok ()) : a.Formatted := by
  have hfits := fits_of_check h
  refine ⟨hfits, row_lt_of_check h, fun j => ?_⟩
  rcases Nat.lt_or_ge j a.ncols with hj | hj
  · rw [map_fst_columnEntries hfits hj, ← isAscending_iff_pairwise]
    obtain ⟨-, -, -, -, hsorted, -⟩ := of_check h
    exact hsorted j hj
  · rw [columnEntries_of_le hfits hj]
    exact List.Pairwise.nil

theorem Formatted.nodup (ha : a.Formatted) (j : Nat) : ((a.columnEntries j).map Prod.fst).Nodup :=
  (ha.ascending j).imp fun h => Nat.ne_of_lt h

end Format

section Values

variable {α : Type} [Zero α] {a : SparseMatrix α}

/-- The value in row `i` of column `j`, zero outside the pattern. -/
def valueAt (a : SparseMatrix α) (i j : Nat) : α :=
  lookupD (a.columnEntries j) i

theorem Formatted.valueAt_of_mem (ha : a.Formatted) {j : Nat} {e : Nat × α} (he : e ∈ a.columnEntries j) :
    a.valueAt e.1 j = e.2 :=
  lookupD_of_mem (ha.nodup j) he

theorem valueAt_of_not_mem {i j : Nat} (h : i ∉ (a.columnEntries j).map Prod.fst) : a.valueAt i j = 0 :=
  lookupD_of_not_mem h

end Values

section Coefficients

variable {K : Type} [Field K] [LinearOrder K] [IsStrictOrderedRing K] {a : SparseMatrix K}

/-- The coefficient in row `i` of column `j`. -/
def coeff (a : SparseMatrix K) (i j : Nat) : K :=
  entryValue (a.columnEntries j) i

theorem coeff_of_not_mem {i j : Nat} (h : i ∉ (a.columnEntries j).map Prod.fst) : a.coeff i j = 0 :=
  entryValue_of_not_mem h

/-- A sum over the stored entries of a column is one over all rows. -/
theorem Formatted.sum_column (ha : a.Formatted) (j : Nat) (x : Nat → K) :
    ((a.columnEntries j).map fun e => e.2 * x e.1).sum = ∑ i ∈ Finset.range a.nrows, a.coeff i j * x i :=
  sum_entries (ha.nodup j) (ha.row_lt j) x

end Coefficients

end SparseMatrix

end PolyProjection
