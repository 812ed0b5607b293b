import PolyProjection.ActiveSet
import PolyProjection.Proofs.IndexList
import PolyProjection.Proofs.Sorted

/-! The working set by the statuses of its rows and columns: the linked rows are the active ones in ascending
order, and each operation changes the status that it is about. -/

namespace PolyProjection.ActiveSet

/-- The status of a row, dropped outside the range. -/
def rowAt (s : ActiveSet) (i : Nat) : RowStatus :=
  s.rowStatus[i]?.getD .dropped

/-- The status of a column, free outside the range. -/
def colAt (s : ActiveSet) (j : Nat) : ColumnStatus :=
  s.colStatus[j]?.getD .free

/-- The active rows in ascending order. -/
def activeList (s : ActiveSet) : List Nat :=
  (List.range s.rowStatus.size).filter fun i => (s.rowAt i).isActive

/-- The linked rows of a set over `m` rows and `n` columns are those whose status is active. -/
structure RowsAgree (s : ActiveSet) (m n : Nat) : Prop where
  size_rowStatus : s.rowStatus.size = m
  size_colStatus : s.colStatus.size = n
  rows : s.rows.Holds m s.activeList

variable {s s' : ActiveSet} {m n i j : Nat}

theorem fetch_rowStatus (h : i < s.rowStatus.size) : fetch s.rowStatus i = .ok (s.rowAt i) := by
  rw [fetch_of_lt h, rowAt, Array.getElem?_eq_getElem h, Option.getD_some]

theorem fetch_colStatus (h : j < s.colStatus.size) : fetch s.colStatus j = .ok (s.colAt j) := by
  rw [fetch_of_lt h, colAt, Array.getElem?_eq_getElem h, Option.getD_some]

theorem fetch_rowStatus_eq {st : RowStatus} (h : fetch s.rowStatus i = .ok st) : st = s.rowAt i := by
  rw [fetch_rowStatus (follow_lt h), Except.ok.injEq] at h
  exact h.symm

theorem fetch_colStatus_eq {st : ColumnStatus} (h : fetch s.colStatus j = .ok st) : st = s.colAt j := by
  rw [fetch_colStatus (follow_lt h), Except.ok.injEq] at h
  exact h.symm

theorem mem_activeList : i ∈ s.activeList ↔ i < s.rowStatus.size ∧ (s.rowAt i).isActive = true := by
  rw [activeList, List.mem_filter, List.mem_range]

theorem activeList_ascending (s : ActiveSet) : s.activeList.Pairwise (· < ·) :=
  filter_range_ascending _ _

theorem rowAt_of_size_le (h : s.rowStatus.size ≤ i) : s.rowAt i = .dropped := by
  rw [rowAt, Array.getElem?_eq_none h, Option.getD_none]

theorem isActive_eq_false_iff {st : RowStatus} : st.isActive = false ↔ st = .dropped := by
  cases st <;> decide

theorem isActive_iff_ne {st : RowStatus} : st.isActive = true ↔ st ≠ .dropped := by
  cases st <;> decide

/-- Every active row is in the list of active rows. -/
theorem mem_activeList_iff : i ∈ s.activeList ↔ (s.rowAt i).isActive = true := by
  rw [mem_activeList]
  refine ⟨fun h => h.2, fun h => ⟨?_, h⟩⟩
  by_contra hlt
  rw [rowAt_of_size_le (Nat.le_of_not_lt hlt)] at h
  cases h

/-- The statuses of the rows say which are listed as active. -/
theorem activeList_congr (h : ∀ i, s'.rowAt i = s.rowAt i) : s'.activeList = s.activeList :=
  s'.activeList_ascending.eq_of_mem_iff s.activeList_ascending fun i => by
    rw [mem_activeList_iff, mem_activeList_iff, h]

theorem RowsAgree.isRowActive_eq (h : s.RowsAgree m n) (hi : i < m) :
    s.isRowActive i = .ok (s.rowAt i).isActive := by
  rw [isRowActive, h.rows.contains_eq hi]
  simp [mem_activeList_iff]

/-- The status of a row below the marker, read off its link. -/
theorem RowsAgree.isRowActive_ok (h : s.RowsAgree m n) {b : Bool} (hok : s.isRowActive i = .ok b) (hi : i < m) :
    b = (s.rowAt i).isActive := by
  rw [h.isRowActive_eq hi, Except.ok.injEq] at hok
  exact hok.symm

theorem isFree_eq (h : j < s.colStatus.size) : s.isFree j = .ok (s.colAt j == .free) := by
  rw [isFree, fetch_colStatus h, ok_bind]
  rfl

theorem isFree_ok {b : Bool} (h : s.isFree j = .ok b) : b = (s.colAt j == .free) ∧ j < s.colStatus.size := by
  have hlt : j < s.colStatus.size := by
    rw [isFree, bind_eq_ok_iff] at h
    obtain ⟨st, hst, -⟩ := h
    exact follow_lt hst
  rw [isFree_eq hlt, Except.ok.injEq] at h
  exact ⟨h.symm, hlt⟩

theorem RowsAgree.activeCount_eq (h : s.RowsAgree m n) : s.activeCount = s.activeList.length :=
  h.rows.size_eq

theorem rowAt_empty (m n : Nat) : (empty m n).rowAt i = .dropped := by
  rw [rowAt, empty, Array.getElem?_replicate]
  split <;> rfl

theorem colAt_empty (m n : Nat) : (empty m n).colAt j = .free := by
  rw [colAt, empty, Array.getElem?_replicate]
  split <;> rfl

theorem activeList_empty (m n : Nat) : (empty m n).activeList = [] :=
  List.eq_nil_iff_forall_not_mem.2 fun i hi => by
    rw [mem_activeList_iff, rowAt_empty] at hi
    cases hi

theorem rowsAgree_empty (m n : Nat) : (empty m n).RowsAgree m n := by
  refine ⟨by simp [empty], by simp [empty], ?_⟩
  rw [activeList_empty]
  exact IndexList.holds_empty m

theorem rowAt_set {st : RowStatus} (hs : s'.rowStatus = s.rowStatus.setIfInBounds i st)
    (hi : i < s.rowStatus.size) (k : Nat) : s'.rowAt k = if k = i then st else s.rowAt k := by
  rw [rowAt, rowAt, hs, Array.getElem?_setIfInBounds]
  by_cases hk : k = i
  · rw [if_pos hk.symm, if_pos hi, if_pos hk, Option.getD_some]
  · rw [if_neg (Ne.symm hk), if_neg hk]

theorem colAt_set {st : ColumnStatus} (hs : s'.colStatus = s.colStatus.setIfInBounds j st)
    (hj : j < s.colStatus.size) (k : Nat) : s'.colAt k = if k = j then st else s.colAt k := by
  rw [colAt, colAt, hs, Array.getElem?_setIfInBounds]
  by_cases hk : k = j
  · rw [if_pos hk.symm, if_pos hj, if_pos hk, Option.getD_some]
  · rw [if_neg (Ne.symm hk), if_neg hk]

/-- The active rows around row `i`. -/
theorem activeList_split (hi : i < s.rowStatus.size) : s.activeList =
    (List.range i).filter (fun k => (s.rowAt k).isActive) ++ ((if (s.rowAt i).isActive then [i] else []) ++
      (List.range' (i + 1) (s.rowStatus.size - i - 1)).filter fun k => (s.rowAt k).isActive) := by
  rw [activeList, range_split hi, List.filter_append, List.filter_cons]
  split <;> rfl

theorem activeList_set {st : RowStatus} (hs : s'.rowStatus = s.rowStatus.setIfInBounds i st)
    (hi : i < s.rowStatus.size) : s'.activeList =
    (List.range i).filter (fun k => (s.rowAt k).isActive) ++ ((if st.isActive then [i] else []) ++
      (List.range' (i + 1) (s.rowStatus.size - i - 1)).filter fun k => (s.rowAt k).isActive) := by
  have hsize : s'.rowStatus.size = s.rowStatus.size := by rw [hs, Array.size_setIfInBounds]
  rw [activeList_split (s := s') (i := i) (by omega), hsize, rowAt_set hs hi i, if_pos rfl]
  congr 1
  · refine List.filter_congr fun k hk => ?_
    rw [rowAt_set hs hi, if_neg (by have := List.mem_range.1 hk; omega)]
  · congr 1
    refine List.filter_congr fun k hk => ?_
    rw [rowAt_set hs hi, if_neg (by have := List.mem_range'_1.1 hk; omega)]

theorem RowsAgree.predecessor?_eq (h : s.RowsAgree m n) (hi : i < m) :
    s.predecessor? i = ((List.range i).filter fun k => (s.rowAt k).isActive).getLast? := by
  rw [predecessor?, find?_eq_head?_filter, List.filter_reverse, List.head?_reverse]
  congr 1
  refine List.filter_congr fun k hk => ?_
  have hk' := List.mem_range.1 hk
  have hcontains := h.isRowActive_eq (i := k) (by omega)
  rw [isRowActive, IndexList.contains, bind_eq_ok_iff] at hcontains
  obtain ⟨link, hlink, hsome⟩ := hcontains
  rw [fetch_eq_ok_iff] at hlink
  rw [pure_eq_ok_iff] at hsome
  rw [hlink, ← hsome]
  rfl

/-- A dropped row becomes active: it is linked in its place and gets the status. -/
theorem RowsAgree.activate_ok (h : s.RowsAgree m n) (hi : i < m) (hdrop : s.rowAt i = .dropped)
    {st : RowStatus} (hst : st.isActive = true) :
    ∃ s', s.activate i st = .ok s' ∧ s'.RowsAgree m n ∧
      ∃ rows, s' = { s with rows := rows, rowStatus := s.rowStatus.setIfInBounds i st } := by
  have hi' : i < s.rowStatus.size := by rw [h.size_rowStatus]; exact hi
  have hsplit := activeList_split hi'
  rw [hdrop, if_neg (by decide), List.nil_append] at hsplit
  have hmem : i ∉ s.activeList := by
    rw [mem_activeList_iff, hdrop]
    decide
  obtain ⟨rows, hrows, hholds⟩ := (hsplit ▸ h.rows).insertAfter_ok hi (hsplit ▸ hmem)
  refine ⟨{ s with rows := rows, rowStatus := s.rowStatus.setIfInBounds i st }, ?_, ⟨?_, h.size_colStatus, ?_⟩,
    rows, rfl⟩
  · have hcontains := h.isRowActive_eq hi
    rw [isRowActive, hdrop] at hcontains
    rw [activate, require_of_true hst, ok_bind, hcontains, ok_bind, require_of_true (by decide), ok_bind,
      h.predecessor?_eq hi, hrows, ok_bind, store_of_lt' _ hi', ok_bind]
    rfl
  · simp [h.size_rowStatus]
  · rw [activeList_set (s := s) rfl hi', if_pos hst]
    exact hholds

/-- An active row is dropped: it is unlinked and noted. -/
theorem RowsAgree.deactivate_ok (h : s.RowsAgree m n) (hact : (s.rowAt i).isActive = true) :
    ∃ s', s.deactivate i = .ok s' ∧ s'.RowsAgree m n ∧ ∃ rows, s' = { s with
      rows := rows, rowStatus := s.rowStatus.setIfInBounds i .dropped, dropped := s.dropped.push i } := by
  have hi' : i < s.rowStatus.size := (mem_activeList.1 (mem_activeList_iff.2 hact)).1
  have hsplit := activeList_split hi'
  rw [if_pos hact] at hsplit
  obtain ⟨rows, hrows, hholds⟩ := IndexList.Holds.unlink_ok (by rw [← List.singleton_append, ← hsplit]; exact h.rows)
  refine ⟨{ s with
    rows := rows, rowStatus := s.rowStatus.setIfInBounds i .dropped, dropped := s.dropped.push i }, ?_,
    ⟨?_, h.size_colStatus, ?_⟩, rows, rfl⟩
  · rw [deactivate, hrows, ok_bind, store_of_lt' _ hi', ok_bind]
    rfl
  · simp [h.size_rowStatus]
  · rw [activeList_set (s := s) rfl hi', if_neg (by decide)]
    exact hholds

/-- Only an active row can be dropped. -/
theorem RowsAgree.active_of_deactivate (h : s.RowsAgree m n) (hi : i < m) (hok : s.deactivate i = .ok s') :
    (s.rowAt i).isActive = true := by
  by_contra hact
  have hmem : i ∉ s.activeList := fun hmem => hact (mem_activeList_iff.1 hmem)
  have hprev := (h.rows.unlinked i hi hmem).2
  rw [deactivate, bind_eq_ok_iff] at hok
  obtain ⟨rows, hrows, -⟩ := hok
  rw [IndexList.unlink, IndexList.follow, fetch_eq_ok_iff.2 hprev] at hrows
  cases hrows

/-- Only a dropped row can be made active. -/
theorem RowsAgree.of_activate {st : RowStatus} (h : s.RowsAgree m n) (hok : s.activate i st = .ok s') :
    i < m ∧ st.isActive = true ∧ s.rowAt i = .dropped ∧ s'.RowsAgree m n ∧
      ∃ rows, s' = { s with rows := rows, rowStatus := s.rowStatus.setIfInBounds i st } := by
  have hok' := hok
  unfold activate at hok'
  simp only [bind_eq_ok_iff, require_eq_ok] at hok'
  obtain ⟨_, hst, linked, hlinked, _, hnot, -⟩ := hok'
  have hlinked' : linked = false := by simpa using hnot
  have hi : i < m := by
    have hle := hlinked
    rw [IndexList.contains, bind_eq_ok_iff] at hle
    obtain ⟨link, hlink, hsome⟩ := hle
    have hlt := follow_lt hlink
    rw [h.rows.size_next] at hlt
    rcases Nat.lt_or_ge i m with hi | hge
    · exact hi
    · rw [show i = m by omega, fetch_eq_ok_iff, h.rows.next_marker.1, Option.some.injEq] at hlink
      rw [← hlink, hlinked', pure_eq_ok_iff] at hsome
      cases hsome
  have hdrop : s.rowAt i = .dropped := by
    have hact := h.isRowActive_ok hlinked hi
    rw [hlinked'] at hact
    exact isActive_eq_false_iff.1 hact.symm
  obtain ⟨t, ht, hagree, hset⟩ := h.activate_ok hi hdrop hst
  rw [hok, Except.ok.injEq] at ht
  exact ⟨hi, hst, hdrop, ht ▸ hagree, ht ▸ hset⟩

theorem RowsAgree.of_deactivate (h : s.RowsAgree m n) (hok : s.deactivate i = .ok s') :
    i < m ∧ (s.rowAt i).isActive = true ∧ s'.RowsAgree m n ∧ ∃ rows, s' = { s with
      rows := rows, rowStatus := s.rowStatus.setIfInBounds i .dropped, dropped := s.dropped.push i } := by
  have hi : i < m := by
    have hok' := hok
    unfold deactivate at hok'
    simp only [bind_eq_ok_iff, store_eq_ok_iff] at hok'
    obtain ⟨_, -, _, ⟨hlt, -⟩, -⟩ := hok'
    rwa [h.size_rowStatus] at hlt
  have hact := h.active_of_deactivate hi hok
  obtain ⟨t, ht, hagree, hset⟩ := h.deactivate_ok hact
  rw [hok, Except.ok.injEq] at ht
  exact ⟨hi, hact, ht ▸ hagree, ht ▸ hset⟩

/-- Statuses of columns and the notes of dropped rows do not matter to the rows. -/
theorem RowsAgree.of_rows_eq (h : s.RowsAgree m n) (hrows : s'.rows = s.rows)
    (hstatus : s'.rowStatus = s.rowStatus) (hcol : s'.colStatus.size = s.colStatus.size) : s'.RowsAgree m n := by
  have hrow : s'.rowAt = s.rowAt := by
    funext k
    rw [rowAt, rowAt, hstatus]
  refine ⟨by rw [hstatus, h.size_rowStatus], by rw [hcol, h.size_colStatus], ?_⟩
  rw [hrows, activeList, hstatus, hrow]
  exact h.rows

theorem removeFree_eq (h : s.removeFree j = .ok s') :
    ∃ free freePos, s' = { s with free := free, freePos := freePos } := by
  unfold removeFree at h
  simp only [bind_eq_ok_iff] at h
  obtain ⟨pos, -, h⟩ := h
  split at h
  · simp only [bind_eq_ok_iff, pure_eq_ok_iff] at h
    obtain ⟨free, -, pos₁, -, pos₂, -, rfl⟩ := h
    exact ⟨_, _, rfl⟩
  · cases h

/-- Holding a column at a bound changes its status, and the lists of columns. -/
theorem activateBound_eq {side : Side} (h : s.activateBound j side = .ok s') : j < s.colStatus.size ∧
    ∃ bound free freePos, s' = { s with
      bound := bound, free := free, freePos := freePos,
      colStatus := s.colStatus.setIfInBounds j side.columnStatus } := by
  unfold activateBound at h
  simp only [bind_eq_ok_iff] at h
  obtain ⟨b, -, h⟩ := h
  cases b with
  | false =>
      simp only [Bool.false_eq_true, if_false, bind_eq_ok_iff, pure_eq_ok_iff, store_eq_ok_iff] at h
      obtain ⟨t, rfl, col, ⟨hlt, rfl⟩, rfl⟩ := h
      exact ⟨hlt, _, _, _, rfl⟩
  | true =>
      simp only [if_true, bind_eq_ok_iff, pure_eq_ok_iff, store_eq_ok_iff] at h
      obtain ⟨u, hu, bound, -, t, rfl, col, ⟨hlt, rfl⟩, rfl⟩ := h
      obtain ⟨free, freePos, rfl⟩ := removeFree_eq hu
      exact ⟨hlt, _, _, _, rfl⟩

/-- Releasing a column changes its status, and the lists of columns. -/
theorem release_eq (h : s.release j = .ok s') : j < s.colStatus.size ∧
    ∃ bound free freePos, s' = { s with
      bound := bound, free := free, freePos := freePos, colStatus := s.colStatus.setIfInBounds j .free } := by
  unfold release at h
  simp only [bind_eq_ok_iff, pure_eq_ok_iff, store_eq_ok_iff] at h
  obtain ⟨bound, -, freePos, ⟨-, rfl⟩, col, ⟨hlt, rfl⟩, rfl⟩ := h
  exact ⟨hlt, _, _, _, rfl⟩

/-- The active rows from `start` up to `stop`. -/
def activeBetween (s : ActiveSet) (start stop : Nat) : List Nat :=
  s.activeList.filter fun i => decide (start ≤ i) && decide (i < stop)

theorem mem_activeBetween {start stop : Nat} :
    i ∈ s.activeBetween start stop ↔ (s.rowAt i).isActive = true ∧ start ≤ i ∧ i < stop := by
  rw [activeBetween, List.mem_filter, mem_activeList_iff, Bool.and_eq_true, decide_eq_true_eq, decide_eq_true_eq]

theorem activeBetween_ascending (s : ActiveSet) (start stop : Nat) :
    (s.activeBetween start stop).Pairwise (· < ·) :=
  s.activeList_ascending.filter _

theorem find?_range'_eq_head? (s : ActiveSet) (start stop : Nat) :
    (List.range' start (stop - start)).find? (· ∈ s.activeList) = (s.activeBetween start stop).head? := by
  rw [← List.head?_filter]
  refine congrArg List.head? ?_
  have hasc : (List.range' start (stop - start)).Pairwise (· < ·) := List.pairwise_lt_range' 1 (by decide)
  refine (hasc.filter _).eq_of_mem_iff (s.activeBetween_ascending start stop) fun i => ?_
  rw [List.mem_filter, List.mem_range'_1, decide_eq_true_eq, mem_activeList_iff, mem_activeBetween]
  constructor
  · rintro ⟨⟨hle, hlt⟩, hact⟩
    exact ⟨hact, hle, by omega⟩
  · rintro ⟨hact, hle, hlt⟩
    exact ⟨⟨hle, by omega⟩, hact⟩

/-- From the first active row of a range on the list has the active rows of the range, up to its end. -/
theorem filter_lt_eq_activeBetween {start stop : Nat} {ys zs rest : List Nat} (hsplit : s.activeList = ys ++ i :: zs)
    (hfirst : s.activeBetween start stop = i :: rest) :
    ((i :: zs).filter fun k => decide (k < stop)) = s.activeBetween start stop := by
  have hasc := s.activeList_ascending
  rw [hsplit, List.pairwise_append] at hasc
  have hi := mem_activeBetween.1 (hfirst ▸ List.mem_cons_self)
  refine (hasc.2.1.filter _).eq_of_mem_iff (s.activeBetween_ascending start stop) fun k => ?_
  rw [List.mem_filter, decide_eq_true_eq, mem_activeBetween, ← mem_activeList_iff, hsplit, List.mem_append]
  constructor
  · rintro ⟨hk, hlt⟩
    have hik : i ≤ k := by
      rcases List.mem_cons.1 hk with rfl | hk
      · exact le_rfl
      · exact ((List.pairwise_cons.1 hasc.2.1).1 k hk).le
    exact ⟨.inr hk, hi.2.1.trans hik, hlt⟩
  · rintro ⟨hk, hle, hlt⟩
    refine ⟨hk.resolve_left fun hys => ?_, hlt⟩
    -- a row before `i` would come first
    have hbefore := hasc.2.2 k hys i List.mem_cons_self
    have hmem : k ∈ s.activeBetween start stop := mem_activeBetween.2
      ⟨mem_activeList_iff.1 (hsplit ▸ List.mem_append_left _ hys), hle, hlt⟩
    have hsorted := s.activeBetween_ascending start stop
    rw [hfirst] at hmem hsorted
    rcases List.mem_cons.1 hmem with rfl | hrest
    · exact lt_irrefl k hbefore
    · exact lt_asymm hbefore ((List.pairwise_cons.1 hsorted).1 k hrest)

/-- The first active row of a range is found, and the list from there on up to the end of the range holds its
active rows. -/
theorem RowsAgree.seek_listFrom (h : s.RowsAgree m n) (start : Nat) {stop : Nat} (hstop : stop ≤ m) :
    ∃ first rest, s.rows.seek start stop = .ok first ∧ s.rows.listFrom first = .ok rest ∧
      rest.takeWhile (· < stop) = s.activeBetween start stop ∧
      first = (s.activeBetween start stop).head? := by
  have hseek := (h.rows.seek_eq hstop).trans (congrArg Except.ok (s.find?_range'_eq_head? start stop))
  cases hbetween : s.activeBetween start stop with
  | nil => exact ⟨none, [], by rw [hseek, hbetween]; rfl, rfl, rfl, rfl⟩
  | cons i rest =>
      have hact := (mem_activeBetween.1 (hbetween ▸ List.mem_cons_self)).1
      obtain ⟨ys, zs, hsplit⟩ := List.append_of_mem (mem_activeList_iff.2 hact)
      have hasc := s.activeList_ascending
      rw [hsplit, List.pairwise_append] at hasc
      refine ⟨some i, i :: zs, by rw [hseek, hbetween]; rfl, (hsplit ▸ h.rows).listFrom_eq, ?_, rfl⟩
      rw [← hbetween, ← filter_lt_eq_activeBetween hsplit hbetween]
      exact takeWhile_lt_eq_filter (f := id) (by rw [List.map_id]; exact hasc.2.1) stop

end PolyProjection.ActiveSet
