import Mathlib
import PolyProjection.Proofs.Sparse.Transpose
import PolyProjection.Sparse.Entry

/-! Transposition undone. The test of the format accepts exactly the well-formed matrices with finite values, so that it
accepts the transpose with the matrix; single entries are those of the columns; and a well-formed matrix is told by its
size and its entries, so that the transpose of the transpose is the matrix. -/

namespace PolyProjection.SparseMatrix

section Entries

variable {α : Type} {a : SparseMatrix α}

/-- What is stored at a row and a column is found there, and nothing is found outside the pattern. -/
theorem Formatted.entry_ok (h : a.Formatted) {i j : Nat} (hi : i < a.nrows) (hj : j < a.ncols) :
    ∃ v, a.entry? i j = .ok v ∧ ∀ x, v = some x ↔ (i, x) ∈ a.columnEntries j := by
  obtain ⟨c, hc, hlist⟩ := h.column_ok hj
  have hrows : (c.map Prod.fst).toList.Pairwise (· < ·) := by
    rw [Array.toList_map, hlist]
    exact h.ascending j
  refine ⟨_, by rw [ entry?, require_of_true (by simp [hi, hj]), ok_bind, hc, ok_bind]; rfl, fun x => ?_⟩
  rw [← hlist, Option.bind_eq_some_iff, Array.mem_toList_iff, Array.mem_iff_getElem?]
  refine exists_congr fun p => ?_
  rw [findSorted_eq_some_iff hrows, Array.getElem?_map, Option.map_eq_some_iff, Option.map_eq_some_iff]
  constructor
  · rintro ⟨⟨e, he, rfl⟩, ⟨d, hd, rfl⟩⟩
    rw [he, Option.some.injEq] at hd
    rw [he, hd]
  · intro hp
    exact ⟨⟨_, hp, rfl⟩, _, hp, rfl⟩

theorem Fits.values_toList (h : a.Fits) : a.values.toList = a.cells.map fun c => c.2.2 := by
  have hzip : (a.rowIndex.zip a.values).toList.map Prod.snd = a.values.toList := by
    rw [Array.toList_zip, List.map_snd_zip]
    simp [h.size_values]
  rw [← hzip, ← h.map_snd_cells, List.map_map]
  rfl

/-- The values are those of the entries. -/
theorem Fits.mem_values_iff (h : a.Fits) {v : α} : v ∈ a.values ↔ ∃ i j, (i, v) ∈ a.columnEntries j := by
  rw [← Array.mem_toList_iff, h.values_toList, List.mem_map]
  constructor
  · rintro ⟨c, hc, rfl⟩
    obtain ⟨j, -, hj⟩ := List.mem_flatMap.1 hc
    obtain ⟨e, he, rfl⟩ := List.mem_map.1 hj
    exact ⟨e.1, j, he⟩
  · rintro ⟨i, j, hij⟩
    have hj : j < a.ncols := by
      by_contra hge
      rw [columnEntries_of_le h (not_lt.1 hge)] at hij
      cases hij
    exact ⟨_, (mem_columnEntries_iff_cells hj).1 hij, rfl⟩

/-- The test of the format accepts exactly the well-formed matrices with finite values. -/
theorem check_eq_ok_iff [Scalar α] :
    a.check = .ok () ↔ a.Formatted ∧ ∀ v ∈ a.values, Scalar.isFinite v = true := by
  refine ⟨fun h => ⟨formatted_of_check h, (of_check h).2.2.2.2.2⟩, fun ⟨h, hfinite⟩ => ?_⟩
  have hstart : ∀ j ≤ a.ncols, a.colStart[j]? = some (a.start j) := fun j hj => fetch_eq_ok_iff.1 (h.fetch_start hj)
  have hchain : isNondecreasing a.colStart.toList = true := by
    rw [isNondecreasing_iff, List.isChain_iff_getElem]
    intro j hj
    rw [Array.length_toList] at hj
    have hmono := h.start_mono j (by rw [h.size_colStart] at hj; omega)
    rwa [start, start, Array.getElem?_eq_getElem hj, Array.getElem?_eq_getElem (by omega)] at hmono
  have hrows : a.rowIndex.all (· < a.nrows) = true := by
    rw [Array.all_eq_true_iff_forall_mem]
    intro i hi
    rw [← Array.mem_toList_iff, h.rowIndex_toList] at hi
    obtain ⟨c, hc, rfl⟩ := List.mem_map.1 hi
    exact decide_eq_true (h.row_lt_of_cells c hc)
  have hsorted : (List.range a.ncols).all (fun j => isAscending (a.columnRows j)) = true := by
    rw [List.all_eq_true]
    intro j hj
    rw [isAscending_iff_pairwise, ← map_fst_columnEntries h.toFits (List.mem_range.1 hj)]
    exact h.ascending j
  rw [check, if_neg (not_not.2 h.size_values.symm),
    if_neg (by rw [h.size_colStart, hstart _ le_rfl, h.start_last]; simp),
    if_neg (by rw [hstart 0 (Nat.zero_le _), h.start_zero, hchain]; simp), if_neg (by rw [hrows]; simp),
    if_neg (by rw [hsorted]; simp), if_neg (by
      rw [Array.all_eq_true_iff_forall_mem.2 hfinite]
      simp)]

end Entries

section Uniqueness

variable {α : Type} {a b aT : SparseMatrix α}

/-- A matrix whose parts fit together is told by its size and its columns. -/
theorem Fits.ext (ha : a.Fits) (hb : b.Fits) (hrows : a.nrows = b.nrows) (hcols : a.ncols = b.ncols)
    (h : ∀ j, a.columnEntries j = b.columnEntries j) : a = b := by
  have hcolumns : a.columnEntries = b.columnEntries := funext h
  have hstart : a.colStart = b.colStart := by
    refine Array.ext_getElem? fun j => ?_
    rcases Nat.lt_or_ge a.ncols j with hj | hj
    · rw [Array.getElem?_eq_none (by rw [ha.size_colStart]; omega),
        Array.getElem?_eq_none (by rw [hb.size_colStart]; omega)]
    · rw [fetch_eq_ok_iff.1 (ha.fetch_start hj), fetch_eq_ok_iff.1 (hb.fetch_start (hcols ▸ hj)), ha.start_eq hj,
        hb.start_eq (hcols ▸ hj), hcolumns]
  have hcells : a.cells = b.cells := by
    rw [cells, cells, hcolumns, hcols]
  have hindex : a.rowIndex = b.rowIndex := by
    rw [← Array.toList_inj, ha.rowIndex_toList, hb.rowIndex_toList, hcells]
  have hvalues : a.values = b.values := by
    rw [← Array.toList_inj, ha.values_toList, hb.values_toList, hcells]
  cases a
  cases b
  congr

/-- A well-formed matrix is told by its size and its entries. -/
theorem Formatted.ext (ha : a.Formatted) (hb : b.Formatted) (hrows : a.nrows = b.nrows) (hcols : a.ncols = b.ncols)
    (h : ∀ i j v, (i, v) ∈ a.columnEntries j ↔ (i, v) ∈ b.columnEntries j) : a = b :=
  ha.toFits.ext hb.toFits hrows hcols fun j =>
    eq_of_ascending_keys (ha.ascending j) (hb.ascending j) fun e => h e.1 j e.2

/-- Whatever is a transpose of a transpose is the matrix. -/
theorem IsTranspose.eq_of_transposed (h : a.Formatted) (hT : IsTranspose a aT) (hTT : IsTranspose aT b) : b = a :=
  (hTT.formatted (hT.formatted h)).ext h (hTT.nrows.trans hT.ncols) (hTT.ncols.trans hT.nrows) fun i j v => by
    rw [hTT.mem_iff (hT.formatted h), hT.mem_iff h]

theorem IsTranspose.check [Scalar α] (h : a.check = .ok ()) (hT : IsTranspose a aT) : aT.check = .ok () := by
  obtain ⟨ha, hfinite⟩ := check_eq_ok_iff.1 h
  refine check_eq_ok_iff.2 ⟨hT.formatted ha, fun v hv => hfinite v ?_⟩
  obtain ⟨j, i, hij⟩ := hT.fits.mem_values_iff.1 hv
  exact ha.mem_values_iff.2 ⟨i, j, (hT.mem_iff ha).1 hij⟩

end Uniqueness

section Involution

variable {α : Type} [Scalar α] {a : SparseMatrix α}

/-- A matrix with so many rows that an array with an entry for each and one more is impossible has no transpose. -/
theorem transpose_tooLarge (hcheck : a.check = .ok ()) (hrows : maxLength ≤ a.nrows) :
    a.transpose = .error .tooLarge := by
  have h := formatted_of_check hcheck
  have hroom : requireLength (a.nrows + 1) = .error .tooLarge := by
    rw [requireLength, require, if_neg (by simpa using hrows)]
  rw [transpose, nnz, h.fetch_start le_rfl, ok_bind, allocate, hroom]
  rfl

/-- A matrix that passes the test of its format has a transpose that passes it too, with as many entries and each of
them at the exchanged indices, and the transpose of that is the matrix. The rows have to be few enough for an array of
the starts of the columns of the transpose. -/
theorem transpose_involutive (hcheck : a.check = .ok ()) (hstarts : a.colStart.size ≤ maxLength)
    (hentries : a.rowIndex.size ≤ maxLength) (hrows : a.nrows < maxLength) :
    ∃ aT, a.transpose = .ok aT ∧ aT.check = .ok () ∧ aT.nrows = a.ncols ∧ aT.ncols = a.nrows ∧
      (∃ n, a.nnz = .ok n ∧ aT.nnz = .ok n) ∧
      (∀ i < a.nrows, ∀ j < a.ncols, ∃ v, a.entry? i j = .ok v ∧ aT.entry? j i = .ok v ∧
        ∀ x, v = some x ↔ (i, x) ∈ a.columnEntries j) ∧
      aT.transpose = .ok a := by
  have h := formatted_of_check hcheck
  obtain ⟨aT, hok, hT⟩ := h.transpose_ok hrows hentries
  have hcheckT := hT.check hcheck
  refine ⟨aT, hok, hcheckT, hT.nrows, hT.ncols, ⟨_, h.fetch_start le_rfl, ?_⟩, fun i hi j hj => ?_, ?_⟩
  · rw [hT.nnz_eq h]
    exact h.fetch_start le_rfl
  · obtain ⟨v, hv, hstored⟩ := h.entry_ok hi hj
    obtain ⟨v', hv', hstored'⟩ := (hT.formatted h).entry_ok (hT.nrows ▸ hj) (hT.ncols ▸ hi)
    have hsame : v' = v := Option.ext fun x => by rw [hstored', hstored, hT.mem_iff h]
    exact ⟨v, hv, hsame ▸ hv', hstored⟩
  · have hsize : aT.nrows + 1 ≤ maxLength := by rw [hT.nrows, ← h.size_colStart]; exact hstarts
    obtain ⟨b, hb, hTT⟩ := (hT.formatted h).transpose_ok hsize (by rw [hT.size_rowIndex h]; exact hentries)
    rw [hb, hT.eq_of_transposed h hTT]

/-- Three rows, of which one is empty, and four columns, of which one is empty and one has a stored zero. -/
def gaps : SparseMatrix ℚ :=
  ⟨3, 4, #[0, 2, 2, 3, 5], #[0, 2, 0, 0, 2], #[1, -2, 0, 3, 1 / 2]⟩

theorem transpose_involutive_gaps : gaps.check = .ok () ∧ ∃ aT, gaps.transpose = .ok aT ∧ aT.check = .ok () ∧
    ( gaps.entry? 0 2 = .ok (some 0) ∧ aT.entry? 2 0 = .ok (some 0)) ∧
    ( gaps.entry? 1 2 = .ok none ∧ aT.entry? 2 1 = .ok none) ∧ aT.transpose = .ok gaps := by
  have hcheck : gaps.check = .ok () := by decide +kernel
  obtain ⟨aT, hT, hcheckT, -, -, -, hentry, hback⟩ :=
    transpose_involutive hcheck (by decide) (by decide) (by decide)
  obtain ⟨v, hv, hvT, hstored⟩ := hentry 0 (by decide) 2 (by decide)
  obtain ⟨w, hw, hwT, habsent⟩ := hentry 1 (by decide) 2 (by decide)
  have hzero : v = some 0 := (hstored 0).2 (by decide +kernel)
  have hnone : w = none := by
    refine Option.eq_none_iff_forall_ne_some.2 fun x hx => ?_
    have hcolumn : gaps.columnEntries 2 = [(0, 0)] := by decide +kernel
    have hmem := (habsent x).1 hx
    rw [hcolumn] at hmem
    simp at hmem
  exact ⟨hcheck, aT, hT, hcheckT, ⟨hzero ▸ hv, hzero ▸ hvT⟩, ⟨hnone ▸ hw, hnone ▸ hwT⟩, hback⟩

/-- A matrix without entries that has more rows than an array has entries. -/
def tall : SparseMatrix ℚ :=
  ⟨2 ^ 60, 0, #[0], #[], #[]⟩

theorem exists_not_transposed : tall.check = .ok () ∧ ¬∃ aT, tall.transpose = .ok aT := by
  have hcheck : tall.check = .ok () := by decide +kernel
  refine ⟨hcheck, ?_⟩
  rintro ⟨aT, hT⟩
  rw [transpose_tooLarge hcheck (by decide)] at hT
  cases hT

end Involution

end PolyProjection.SparseMatrix
