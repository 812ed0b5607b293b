import Mathlib
import PolyProjection.Proofs.Sparse.Columns
import PolyProjection.Sparse.Transpose

/-! The stored transpose has the entries of each row of the matrix, in the order of the columns. The counting sort
is followed through the list of all entries: the entries of a row that are placed already stand at the first
positions of the range of that row. -/

namespace PolyProjection.SparseMatrix

set_option linter.unusedSectionVars false

section Counting

variable {α : Type}

/-- All entries with their columns, column by column. -/
def cells (a : SparseMatrix α) : List (Nat × Nat × α) :=
  (List.range a.ncols).flatMap fun j => (a.columnEntries j).map fun e => (j, e)

/-- Those of the given entries that lie in row `r`. -/
def inRow (r : Nat) (cs : List (Nat × Nat × α)) : List (Nat × Nat × α) :=
  cs.filter fun c => c.2.1 == r

/-- The number of entries in the rows before `r`. -/
def offset (a : SparseMatrix α) (r : Nat) : Nat :=
  (a.cells.filter fun c => decide (c.2.1 < r)).length

variable {a : SparseMatrix α}

theorem inRow_append (r : Nat) (cs ds : List (Nat × Nat × α)) : inRow r (cs ++ ds) = inRow r cs ++ inRow r ds :=
  List.filter_append ..

theorem Fits.map_snd_cells (h : a.Fits) : a.cells.map Prod.snd = (a.rowIndex.zip a.values).toList := by
  have hall := h.flatMap_columnEntries (n := a.ncols) le_rfl
  rw [h.start_last, List.take_of_length_le (by simp [h.size_values])] at hall
  rw [← hall, cells, List.map_flatMap]
  congr 1
  funext j
  rw [List.map_map]
  exact List.map_id _

theorem Fits.rowIndex_toList (h : a.Fits) : a.rowIndex.toList = a.cells.map fun c => c.2.1 := by
  have hzip : (a.rowIndex.zip a.values).toList.map Prod.fst = a.rowIndex.toList := by
    rw [Array.toList_zip, List.map_fst_zip]
    simp [h.size_values]
  rw [← hzip, ← h.map_snd_cells, List.map_map]
  rfl

theorem Fits.length_cells (h : a.Fits) : a.cells.length = a.rowIndex.size := by
  rw [← Array.length_toList, h.rowIndex_toList, List.length_map]

theorem offset_zero (a : SparseMatrix α) : a.offset 0 = 0 := by
  simp [offset]

theorem length_filter_lt_succ (cs : List (Nat × Nat × α)) (r : Nat) :
    (cs.filter fun c => decide (c.2.1 < r + 1)).length =
      (cs.filter fun c => decide (c.2.1 < r)).length + (inRow r cs).length := by
  induction cs with
  | nil => rfl
  | cons c cs ih =>
      simp only [inRow, List.filter_cons] at ih ⊢
      rcases Nat.lt_trichotomy c.2.1 r with hlt | heq | hgt
      · rw [if_pos (by simp; omega), if_pos (by simpa using hlt), if_neg (by simp; omega)]
        simp only [List.length_cons]
        omega
      · rw [if_pos (by simp; omega), if_neg (by simp; omega), if_pos (by simpa using heq)]
        simp only [List.length_cons]
        omega
      · rw [if_neg (by simp; omega), if_neg (by simp; omega), if_neg (by simp; omega)]
        exact ih

theorem offset_succ (a : SparseMatrix α) (r : Nat) : a.offset (r + 1) = a.offset r + (inRow r a.cells).length :=
  length_filter_lt_succ a.cells r

theorem offset_le (a : SparseMatrix α) {r s : Nat} (h : r ≤ s) : a.offset r ≤ a.offset s := by
  induction s with
  | zero => rw [Nat.le_zero.1 h]
  | succ s ih =>
      rcases Nat.lt_or_ge r (s + 1) with hlt | hge
      · rw [offset_succ]
        have := ih (by omega)
        omega
      · rw [show r = s + 1 by omega]

theorem offset_le_length (a : SparseMatrix α) (r : Nat) : a.offset r ≤ a.cells.length :=
  List.length_filter_le ..

/-- Distinct rows have disjoint ranges of positions. -/
theorem offset_disjoint {r s t u : Nat} (hne : r ≠ s) (ht : t < (inRow r a.cells).length)
    (hu : u < (inRow s a.cells).length) : a.offset r + t ≠ a.offset s + u := by
  rcases Nat.lt_or_gt_of_ne hne with h | h
  · have := a.offset_le (show r + 1 ≤ s by omega)
    rw [offset_succ] at this
    omega
  · have := a.offset_le (show s + 1 ≤ r by omega)
    rw [offset_succ] at this
    omega

theorem rowCounts_ok (h : a.Fits) (hrow : ∀ c ∈ a.cells, c.2.1 < a.nrows) :
    ∃ counts, a.rowCounts = .ok counts ∧ counts.size = a.nrows ∧
      ∀ r < a.nrows, counts[r]? = some (inRow r a.cells).length := by
  have hrows : ∀ r ∈ a.rowIndex.toList, r < a.nrows := by
    rw [h.rowIndex_toList]
    intro r hr
    obtain ⟨c, hc, rfl⟩ := List.mem_map.1 hr
    exact hrow c hc
  rw [rowCounts, ← Array.foldlM_toList]
  obtain ⟨counts, hok, hsize, hcount⟩ := foldlM_succeeds
    (f := fun counts r => adjust counts r (· + 1)) (b := Array.replicate a.nrows 0) (l := a.rowIndex.toList)
    (fun done counts => counts.size = a.nrows ∧ ∀ r < a.nrows, counts[r]? = some (done.count r))
    ⟨by simp, fun r hr => by simp [hr]⟩ (by
      rintro done x rest counts hxs ⟨hsize, hcount⟩
      have hx : x < a.nrows := hrows x (by rw [hxs]; simp)
      have hlt : x < counts.size := by omega
      refine ⟨_, adjust_of_lt _ hlt, by simp [hsize], fun r hr => ?_⟩
      have hr' := hcount r hr
      rw [Array.getElem?_set]
      by_cases hxr : x = r
      · subst hxr
        rw [Array.getElem?_eq_getElem hlt, Option.some.injEq] at hr'
        simp [hr']
      · rw [if_neg hxr, hr', List.count_append, List.count_singleton]
        simp [hxr])
  refine ⟨counts, hok, hsize, fun r hr => ?_⟩
  rw [hcount r hr, h.rowIndex_toList, List.count_eq_length_filter, List.filter_map, List.length_map]
  rfl

theorem partialSums_spec (counts : Array Nat) : (partialSums counts).size = counts.size + 1 ∧
    ∀ i ≤ counts.size, (partialSums counts)[i]? = some (counts.toList.take i).sum := by
  obtain ⟨cs⟩ := counts
  rw [partialSums, ← Array.foldl_toList]
  simp only [List.size_toArray]
  induction cs using List.reverseRecOn with
  | nil => simp
  | append_singleton cs c ih =>
      obtain ⟨hsize, hsums⟩ := ih
      rw [List.foldl_append, List.foldl_cons, List.foldl_nil]
      refine ⟨by rw [Array.size_push, hsize, List.length_append, List.length_singleton], fun i hi => ?_⟩
      rw [List.length_append, List.length_singleton] at hi
      have hback := hsums cs.length le_rfl
      rw [List.take_length] at hback
      rw [Array.getElem?_push, hsize]
      split
      · rename_i heq
        rw [heq, Array.back?_eq_getElem?, hsize, Nat.add_sub_cancel, hback, Option.getD_some,
          List.take_of_length_le (by simp), List.sum_append, List.sum_singleton]
      · rw [hsums i (by omega), List.take_append_of_le_length (by omega)]

/-- The sums of the counts are where the rows start. -/
theorem partialSums_offset {counts : Array Nat} (hsize : counts.size = a.nrows)
    (hcount : ∀ r < a.nrows, counts[r]? = some (inRow r a.cells).length) :
    ∀ i ≤ a.nrows, (partialSums counts)[i]? = some (a.offset i) := by
  intro i hi
  rw [(partialSums_spec counts).2 i (by omega)]
  congr 1
  induction i with
  | zero => simp [offset_zero]
  | succ i ih =>
      have hi' : i < counts.toList.length := by simp; omega
      have hci := hcount i (by omega)
      rw [← Array.getElem?_toList, List.getElem?_eq_getElem hi', Option.some.injEq] at hci
      rw [List.take_succ_eq_append_getElem hi', List.sum_append, List.sum_singleton, ih (by omega), hci, offset_succ]

/-- The entries `done` have been placed: each row has them at the first positions of its range. -/
structure Placed (a : SparseMatrix α) (done : List (Nat × Nat × α)) (s : Scatter α) : Prop where
  size_rowIndex : s.rowIndex.size = a.cells.length
  size_values : s.values.size = a.cells.length
  size_next : s.next.size = a.nrows
  next : ∀ r < a.nrows, s.next[r]? = some (a.offset r + (inRow r done).length)
  stored : ∀ r < a.nrows, ∀ t c, (inRow r done)[t]? = some c →
    s.rowIndex[a.offset r + t]? = some c.1 ∧ s.values[a.offset r + t]? = some c.2.2

theorem inRow_concat_self (cs : List (Nat × Nat × α)) (j r : Nat) (v : α) :
    inRow r (cs ++ [(j, r, v)]) = inRow r cs ++ [(j, r, v)] := by
  simp [inRow]

theorem inRow_concat_of_ne (cs : List (Nat × Nat × α)) (j : Nat) {q r : Nat} (v : α) (h : q ≠ r) :
    inRow q (cs ++ [(j, r, v)]) = inRow q cs := by
  simp [inRow, h.symm]

/-- There is room for one more entry in the range of its row, and the range lies within the arrays. -/
theorem room_of_cells {done rest : List (Nat × Nat × α)} {j r : Nat} {v : α}
    (hcells : a.cells = done ++ (j, r, v) :: rest) : (inRow r done).length < (inRow r a.cells).length ∧
      a.offset r + (inRow r done).length < a.cells.length := by
  have hroom : (inRow r done).length < (inRow r a.cells).length := by
    rw [hcells, inRow_append, show inRow r ((j, r, v) :: rest) = (j, r, v) :: inRow r rest by simp [inRow]]
    simp
  have htotal : a.offset r + (inRow r a.cells).length ≤ a.cells.length := by
    rw [← offset_succ]
    exact a.offset_le_length _
  exact ⟨hroom, by omega⟩

/-- An old entry stays where it is, and the new one goes to the next position of its row. -/
theorem stored_concat {β : Type} {done rest : List (Nat × Nat × α)} {j r : Nat} {v : α} {x : Array β}
    {f : Nat × Nat × α → β} (hcells : a.cells = done ++ (j, r, v) :: rest) (hsize : x.size = a.cells.length)
    (hstored : ∀ q < a.nrows, ∀ t c, (inRow q done)[t]? = some c → x[a.offset q + t]? = some (f c))
    {q t : Nat} {c : Nat × Nat × α} (hq : q < a.nrows) (hc : (inRow q (done ++ [(j, r, v)]))[t]? = some c) :
    (x.setIfInBounds (a.offset r + (inRow r done).length) (f (j, r, v)))[a.offset q + t]? = some (f c) := by
  obtain ⟨hroom, hin⟩ := room_of_cells hcells
  have hcount : (inRow q done).length ≤ (inRow q a.cells).length := by
    rw [hcells, inRow_append, List.length_append]
    omega
  rw [Array.getElem?_setIfInBounds]
  by_cases hqr : q = r
  · subst hqr
    rw [inRow_concat_self] at hc
    have hlt := (List.getElem?_eq_some_iff.1 hc).1
    rw [List.length_append, List.length_singleton] at hlt
    by_cases ht : t = (inRow q done).length
    · rw [ht, List.getElem?_concat_length, Option.some.injEq] at hc
      rw [if_pos (by rw [ht]), if_pos (by omega), hc]
    · rw [List.getElem?_append_left (by omega)] at hc
      rw [if_neg (by omega)]
      exact hstored q hq t c hc
  · rw [inRow_concat_of_ne _ _ _ hqr] at hc
    have hlt := (List.getElem?_eq_some_iff.1 hc).1
    rw [if_neg (offset_disjoint (Ne.symm hqr) hroom (hlt.trans_le hcount))]
    exact hstored q hq t c hc

theorem Placed.place {done rest : List (Nat × Nat × α)} {c : Nat × Nat × α} {s : Scatter α}
    (hs : a.Placed done s) (hcells : a.cells = done ++ c :: rest) (hc : c.2.1 < a.nrows) :
    ∃ s', s.place c.1 c.2 = .ok s' ∧ a.Placed (done ++ [c]) s' := by
  obtain ⟨j, r, v⟩ := c
  simp only at hc
  obtain ⟨-, hin⟩ := room_of_cells hcells
  have hnext : r < s.next.size := by rw [hs.size_next]; exact hc
  have hdest : fetch s.next r = .ok (a.offset r + (inRow r done).length) := fetch_eq_ok_iff.2 (hs.next r hc)
  refine ⟨_, by
    rw [Scatter.place, hdest, ok_bind, store_of_lt' _ (by rw [hs.size_rowIndex]; omega), ok_bind,
      store_of_lt' _ (by rw [hs.size_values]; omega), ok_bind, store_of_lt' _ hnext, ok_bind]
    rfl, ?_⟩
  constructor
  · simp [hs.size_rowIndex]
  · simp [hs.size_values]
  · simp [hs.size_next]
  · intro q hq
    rw [Array.getElem?_setIfInBounds]
    by_cases hqr : q = r
    · rw [if_pos hqr.symm, if_pos hnext, hqr, inRow_concat_self, List.length_append, List.length_singleton,
        Nat.add_assoc]
    · rw [if_neg (Ne.symm hqr), hs.next q hq, inRow_concat_of_ne _ _ _ hqr]
  · intro q hq t d htd
    exact ⟨stored_concat (f := fun c => c.1) hcells hs.size_rowIndex (fun q hq t c h => (hs.stored q hq t c h).1) hq htd,
      stored_concat (f := fun c => c.2.2) hcells hs.size_values (fun q hq t c h => (hs.stored q hq t c h).2) hq htd⟩

theorem foldlM_cells {β : Type} (h : a.Fits) (f : β → Nat × Nat × α → Checked β) (b : β) :
    (List.range a.ncols).foldlM (fun s j => do (← a.entries j).foldlM (fun s e => f s (j, e)) s) b =
      a.cells.foldlM f b := by
  rw [cells]
  suffices H : ∀ js : List Nat, (∀ j ∈ js, j < a.ncols) → ∀ b, js.foldlM
      (fun s j => do (← a.entries j).foldlM (fun s e => f s (j, e)) s) b =
        (js.flatMap fun j => (a.columnEntries j).map fun e => (j, e)).foldlM f b from
    H _ (fun j hj => List.mem_range.1 hj) b
  intro js
  induction js with
  | nil => intro _ b; rfl
  | cons j js ih =>
      intro hjs b
      obtain ⟨c, hc, hlist⟩ := h.entries_ok (hjs j List.mem_cons_self)
      rw [List.foldlM_cons, hc, ok_bind, List.flatMap_cons, List.foldlM_append, ← hlist,
        List.foldlM_map, Array.foldlM_toList]
      congr 1
      funext b
      exact ih (fun k hk => hjs k (List.mem_cons_of_mem j hk)) b

end Counting

section Transposed

variable {α : Type} {a aT : SparseMatrix α}

theorem Formatted.row_lt_of_cells (h : a.Formatted) : ∀ c ∈ a.cells, c.2.1 < a.nrows := by
  intro c hc
  obtain ⟨j, -, hj⟩ := List.mem_flatMap.1 hc
  obtain ⟨e, he, rfl⟩ := List.mem_map.1 hj
  exact h.row_lt j e he

theorem offset_nrows (h : a.Formatted) : a.offset a.nrows = a.cells.length := by
  rw [offset, List.filter_eq_self.2]
  intro c hc
  simpa using h.row_lt_of_cells c hc

/-- `aT` is the transpose of `a`: its columns are the rows of `a`. -/
structure IsTranspose (a aT : SparseMatrix α) : Prop where
  nrows : aT.nrows = a.ncols
  ncols : aT.ncols = a.nrows
  fits : aT.Fits
  columns : ∀ i < a.nrows, aT.columnEntries i = (inRow i a.cells).map fun c => (c.1, c.2.2)

section Assembled

variable {starts : Array Nat} {placed : Scatter α} (hsize : starts.size = a.nrows + 1)
  (hstart : ∀ i ≤ a.nrows, starts[i]? = some (a.offset i)) (hp : a.Placed a.cells placed)

include hsize hstart hp

theorem Placed.fits (h : a.Formatted) :
    Fits (⟨a.ncols, a.nrows, starts, placed.rowIndex, placed.values⟩ : SparseMatrix α) where
  size_values := by rw [hp.size_values, hp.size_rowIndex]
  size_colStart := hsize
  start_zero := by rw [start, hstart 0 (by omega), Option.getD_some, offset_zero]
  start_mono i hi := by
    rw [start, start, hstart i (le_of_lt hi), hstart (i + 1) hi]
    exact a.offset_le (by omega)
  start_last := by rw [start, hstart _ le_rfl, Option.getD_some, offset_nrows h, hp.size_rowIndex]

/-- Once all entries are placed, the arrays are the transpose. -/
theorem Placed.isTranspose (h : a.Formatted) :
    IsTranspose a ⟨a.ncols, a.nrows, starts, placed.rowIndex, placed.values⟩ := by
  have hfits := hp.fits hsize hstart h
  refine ⟨rfl, rfl, hfits, fun i hi => ?_⟩
  rw [hfits.columnEntries_eq hi]
  simp only [start, hstart i (le_of_lt hi), hstart (i + 1) hi, Option.getD_some]
  refine List.ext_getElem? fun t => ?_
  rw [List.getElem?_drop, List.getElem?_take, offset_succ, List.getElem?_map]
  by_cases ht : t < (inRow i a.cells).length
  · rw [if_pos (by omega)]
    have hc := List.getElem?_eq_getElem ht
    obtain ⟨hr, hv⟩ := hp.stored i hi t _ hc
    have hzip : (placed.rowIndex.zip placed.values)[a.offset i + t]? =
        some ((inRow i a.cells)[t].1, (inRow i a.cells)[t].2.2) := Array.getElem?_zip_eq_some.2 ⟨hr, hv⟩
    rw [Array.getElem?_toList, hzip, hc]
    rfl
  · rw [if_neg (by omega), List.getElem?_eq_none (by omega)]
    rfl

end Assembled

theorem allocate_ok [Scalar α] {nrows ncols nnz : Nat} (hcols : ncols + 1 ≤ maxLength) (hnnz : nnz ≤ maxLength) :
    allocate (α := α) nrows ncols nnz = .ok ⟨nrows, ncols, (Array.replicate ncols 0).push nnz,
      Array.replicate nnz 0, Array.replicate nnz 0⟩ := by
  rw [allocate, requireLength_eq_ok_iff.2 hcols, ok_bind, requireLength_eq_ok_iff.2 hnnz, ok_bind, ofParts,
    require_of_true (by simp), ok_bind, require_of_true (by simp), ok_bind,
    require_of_true (by rw [Array.getElem?_push]; simp), ok_bind]
  rfl

/-- A well-formed matrix is transposed wherever there is room for the result. -/
theorem Formatted.transpose_ok [Scalar α] (h : a.Formatted) (hrows : a.nrows + 1 ≤ maxLength)
    (hnnz : a.rowIndex.size ≤ maxLength) : ∃ aT, a.transpose = .ok aT ∧ IsTranspose a aT := by
  obtain ⟨counts, hcounts, hsize, hcount⟩ := rowCounts_ok h.toFits h.row_lt_of_cells
  have hsums := (partialSums_spec counts).1
  have hstart := partialSums_offset hsize hcount
  have hn : a.nnz = .ok a.cells.length := by
    rw [nnz, h.fetch_start le_rfl, h.start_last, h.length_cells]
  obtain ⟨placed, hplaced, hp⟩ := foldlM_succeeds (f := fun s c => Scatter.place s c.1 c.2) (l := a.cells)
    (b := ⟨Array.replicate a.cells.length 0, Array.replicate a.cells.length 0, (partialSums counts).pop⟩)
    (Placed a) (by
      constructor
      · simp
      · simp
      · simp [hsums, hsize]
      · intro r hr
        rw [Array.getElem?_pop, if_pos (by omega), hstart r hr.le]
        rfl
      · intro r _ t c hc
        cases hc)
    (fun done c rest s hcells hs => hs.place hcells (h.row_lt_of_cells c (by rw [hcells]; simp)))
  have hloop := (foldlM_cells h.toFits (fun s c => Scatter.place s c.1 c.2) _).trans hplaced
  refine ⟨_, ?_, hp.isTranspose (by rw [hsums, hsize]) hstart h⟩
  rw [transpose, hn, ok_bind, allocate_ok hrows (h.length_cells ▸ hnnz), ok_bind, hcounts, ok_bind]
  dsimp only at hloop ⊢
  rw [hloop]
  rfl

/-- Whatever the transposition answers with is the transpose. -/
theorem Formatted.isTranspose_of_ok [Scalar α] {aT : SparseMatrix α} (h : a.Formatted) (hok : a.transpose = .ok aT) :
    IsTranspose a aT := by
  have hnnz : a.nnz = .ok a.rowIndex.size := by
    rw [nnz, h.fetch_start le_rfl, h.start_last]
  have hok' := hok
  rw [transpose, hnnz, ok_bind, bind_eq_ok_iff] at hok'
  obtain ⟨room, hroom, -⟩ := hok'
  unfold allocate at hroom
  simp only [bind_eq_ok_iff] at hroom
  obtain ⟨_, hrows, _, hsize, -⟩ := hroom
  obtain ⟨aT', hok', hT⟩ := h.transpose_ok (requireLength_eq_ok_iff.1 hrows) (requireLength_eq_ok_iff.1 hsize)
  rw [hok, Except.ok.injEq] at hok'
  rwa [hok']

variable (h : a.Formatted) (hT : IsTranspose a aT)

theorem mem_columnEntries_iff_cells {i j : Nat} {v : α} (hj : j < a.ncols) :
    (i, v) ∈ a.columnEntries j ↔ (j, i, v) ∈ a.cells := by
  rw [cells, List.mem_flatMap]
  constructor
  · intro he
    exact ⟨j, List.mem_range.2 hj, List.mem_map.2 ⟨(i, v), he, rfl⟩⟩
  · rintro ⟨k, -, hk⟩
    obtain ⟨e, he, heq⟩ := List.mem_map.1 hk
    rw [Prod.mk.injEq] at heq
    rw [← heq.1, ← heq.2]
    exact he

include h hT in
/-- An entry of the transpose is one of the matrix with row and column exchanged. -/
theorem IsTranspose.mem_iff_of_lt {i j : Nat} {v : α} (hi : i < a.nrows) (hj : j < a.ncols) :
    (j, v) ∈ aT.columnEntries i ↔ (i, v) ∈ a.columnEntries j := by
  rw [hT.columns i hi, mem_columnEntries_iff_cells hj, List.mem_map]
  constructor
  · rintro ⟨⟨k, r, w⟩, hc, heq⟩
    obtain ⟨hc, hr⟩ := List.mem_filter.1 hc
    rw [Prod.mk.injEq] at heq
    rw [← heq.1, ← heq.2, ← show r = i by simpa using hr]
    exact hc
  · intro hc
    exact ⟨(j, i, v), List.mem_filter.2 ⟨hc, by simp⟩, rfl⟩

include hT in
theorem IsTranspose.col_lt : ∀ i, ∀ e ∈ aT.columnEntries i, e.1 < a.ncols := by
  intro i e he
  rcases Nat.lt_or_ge i a.nrows with hi | hi
  · rw [hT.columns i hi, List.mem_map] at he
    obtain ⟨c, hc, rfl⟩ := he
    obtain ⟨j, hj, hcj⟩ := List.mem_flatMap.1 (List.mem_filter.1 hc).1
    obtain ⟨d, -, rfl⟩ := List.mem_map.1 hcj
    exact List.mem_range.1 hj
  · rw [columnEntries_of_le hT.fits (by rw [hT.ncols]; exact hi)] at he
    cases he

include h hT in
/-- An entry is stored in both matrices or in neither. -/
theorem IsTranspose.mem_iff {i j : Nat} {v : α} : (j, v) ∈ aT.columnEntries i ↔ (i, v) ∈ a.columnEntries j := by
  constructor
  · intro he
    have hi : i < a.nrows := by
      by_contra hge
      rw [columnEntries_of_le hT.fits (by rw [hT.ncols]; exact not_lt.1 hge)] at he
      cases he
    exact (hT.mem_iff_of_lt h hi (hT.col_lt i _ he)).1 he
  · intro he
    have hj : j < a.ncols := by
      by_contra hge
      rw [columnEntries_of_le h.toFits (not_lt.1 hge)] at he
      cases he
    exact (hT.mem_iff_of_lt h (h.row_lt j _ he) hj).2 he

include hT in
theorem IsTranspose.start_eq {n : Nat} (hn : n ≤ a.nrows) : aT.start n = a.offset n := by
  rw [hT.fits.start_eq (hT.ncols ▸ hn)]
  induction n with
  | zero => simp [offset_zero]
  | succ n ih =>
      rw [List.range_succ, List.flatMap_append, List.length_append, ih (by omega), List.flatMap_singleton,
        hT.columns n hn, List.length_map, offset_succ]

include h hT in
theorem IsTranspose.size_rowIndex : aT.rowIndex.size = a.rowIndex.size :=
  calc aT.rowIndex.size = aT.start aT.ncols := hT.fits.start_last.symm
    _ = aT.start a.nrows := by rw [hT.ncols]
    _ = a.offset a.nrows := hT.start_eq le_rfl
    _ = a.cells.length := offset_nrows h
    _ = a.rowIndex.size := h.length_cells

include h hT in
/-- The transpose has as many entries as the matrix. -/
theorem IsTranspose.nnz_eq : aT.nnz = a.nnz := by
  rw [nnz, nnz, hT.fits.fetch_start le_rfl, h.fetch_start le_rfl, hT.fits.start_last, h.start_last,
    hT.size_rowIndex h]

include h hT in
theorem IsTranspose.formatted : aT.Formatted := by
  refine ⟨hT.fits, fun i e he => hT.nrows ▸ hT.col_lt i e he, fun i => ?_⟩
  rcases Nat.lt_or_ge i a.nrows with hi | hi
  · rw [hT.columns i hi, inRow, cells, List.filter_flatMap, List.map_flatMap, List.map_flatMap,
      List.pairwise_flatMap]
    refine ⟨fun j _ => ?_, List.pairwise_lt_range.imp fun {j k} hjk x hx y hy => ?_⟩
    · rw [List.filter_map, List.map_map, List.map_map]
      have hone : ((a.columnEntries j).filter fun e => e.1 == i).Pairwise fun _ _ => False := by
        refine List.Pairwise.imp_of_mem ?_ ((List.pairwise_map.1 (h.ascending j)).filter _)
        intro d e hd he hlt
        have hd' : d.1 = i := by simpa using (List.mem_filter.1 hd).2
        have he' : e.1 = i := by simpa using (List.mem_filter.1 he).2
        omega
      exact List.pairwise_map.2 (hone.imp fun hfalse => hfalse.elim)
    · have hkey : ∀ l z, z ∈ ((((a.columnEntries l).map fun e => (l, e)).filter
          fun c => c.2.1 == i).map fun c => (c.1, c.2.2)).map Prod.fst → z = l := by
        intro l z hz
        obtain ⟨e, he, rfl⟩ := List.mem_map.1 hz
        obtain ⟨c, hc, rfl⟩ := List.mem_map.1 he
        obtain ⟨d, -, rfl⟩ := List.mem_map.1 (List.mem_filter.1 hc).1
        rfl
      rw [hkey j x hx, hkey k y hy]
      exact hjk
  · rw [columnEntries_of_le hT.fits (by rw [hT.ncols]; exact hi)]
    exact List.Pairwise.nil

include h hT in
/-- The values of the transpose are those of the matrix. -/
theorem IsTranspose.valueAt_eq [Zero α] (i j : Nat) : aT.valueAt j i = a.valueAt i j := by
  by_cases hmem : i ∈ (a.columnEntries j).map Prod.fst
  · obtain ⟨⟨r, v⟩, he, rfl⟩ := List.mem_map.1 hmem
    rw [h.valueAt_of_mem he, (hT.formatted h).valueAt_of_mem ((hT.mem_iff h).2 he)]
  · rw [valueAt_of_not_mem hmem, valueAt_of_not_mem]
    intro hmemT
    obtain ⟨⟨c, v⟩, he, rfl⟩ := List.mem_map.1 hmemT
    exact hmem (List.mem_map.2 ⟨(i, v), (hT.mem_iff h).1 he, rfl⟩)

end Transposed

/-- The coefficients of the transpose are those of the matrix. -/
theorem IsTranspose.coeff_eq {K : Type} [Field K] [LinearOrder K] [IsStrictOrderedRing K] {a aT : SparseMatrix K}
    (h : a.Formatted) (hT : IsTranspose a aT) (i j : Nat) : aT.coeff j i = a.coeff i j :=
  hT.valueAt_eq h i j

end PolyProjection.SparseMatrix
