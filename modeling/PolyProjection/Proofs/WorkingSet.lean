import PolyProjection.Proofs.Consistency

/-! The working set as the sets that it stands for. A sequence of operations is replayed on plain functions of the
statuses, with the time at which each column was bound and the rows that were dropped, and the linked lists, the
listing of the free columns and the log tell the same as this replay after every operation. -/

namespace PolyProjection.ActiveSet

variable {s s' : ActiveSet} {m n i j : ℕ}

/-- An operation on a working set. -/
inductive Step where
  | activate (row : ℕ) (status : RowStatus)
  | deactivate (row : ℕ)
  | hold (col : ℕ) (side : Side)
  | release (col : ℕ)
  | takeDropped

/-- The working set after an operation. -/
def Step.run (s : ActiveSet) : Step → Checked ActiveSet
  | activate i status => s.activate i status
  | deactivate i => s.deactivate i
  | hold j side => s.activateBound j side
  | release j => s.release j
  | takeDropped => return s.takeDropped.2

/-- What a working set stands for: the statuses, the number of operations that came before the one by which a column
last left the free ones, and the rows dropped since they were last asked for. -/
structure Sets where
  rows : ℕ → RowStatus
  cols : ℕ → ColumnStatus
  boundAt : ℕ → ℕ
  dropped : List ℕ
  clock : ℕ

/-- Every row dropped and every column free. -/
def Sets.initial : Sets :=
  ⟨fun _ => .dropped, fun _ => .free, fun _ => 0, [], 0⟩

/-- The sets after an operation. Only a column that was free is bound anew. -/
def Sets.after (a : Sets) : Step → Sets
  | .activate i status => { a with rows := Function.update a.rows i status, clock := a.clock + 1 }
  | .deactivate i => { a with
      rows := Function.update a.rows i .dropped, dropped := a.dropped ++ [i], clock := a.clock + 1 }
  | .hold j side => { a with
      cols := Function.update a.cols j side.columnStatus
      boundAt := if a.cols j = .free then Function.update a.boundAt j a.clock else a.boundAt
      clock := a.clock + 1 }
  | .release j => { a with cols := Function.update a.cols j .free, clock := a.clock + 1 }
  | .takeDropped => { a with dropped := [], clock := a.clock + 1 }

/-- Dropped rows are activated, active ones are dropped, bound columns are released. -/
def Step.Admitted (m n : ℕ) (a : Sets) : Step → Prop
  | activate i status => i < m ∧ a.rows i = .dropped ∧ status ≠ .dropped
  | deactivate i => i < m ∧ a.rows i ≠ .dropped
  | hold j _ => j < n
  | release j => j < n ∧ a.cols j ≠ .free
  | takeDropped => True

/-- Every operation of a sequence is admitted after the ones before it. -/
def Admits (m n : ℕ) : Sets → List Step → Prop
  | _, [] => True
  | a, step :: steps => step.Admitted m n a ∧ Admits m n (a.after step) steps

/-- The active rows in ascending order. -/
def Sets.active (a : Sets) (m : ℕ) : List ℕ :=
  (List.range m).filter fun i => a.rows i ≠ .dropped

/-- A working set over `m` rows and `n` columns tells what it stands for. -/
structure Refines (s : ActiveSet) (m n : ℕ) (a : Sets) : Prop where
  isConsistent : s.isConsistent = .ok true
  rowStatus : ∀ i < m, fetch s.rowStatus i = .ok (a.rows i)
  colStatus : ∀ j < n, fetch s.colStatus j = .ok (a.cols j)
  rows : s.rows.toList = .ok (a.active m)
  rows_backwards : s.rows.backwards = .ok (a.active m).reverse
  bound : ∃ held, s.bound.toList = .ok held ∧ (∀ j, j ∈ held ↔ j < n ∧ a.cols j ≠ .free) ∧
    held.Pairwise fun j k => a.boundAt j < a.boundAt k
  free_nodup : s.free.toList.Nodup
  mem_free : ∀ j, j ∈ s.free.toList ↔ j < n ∧ a.cols j = .free
  freePos : ∀ j < n, a.cols j = .free → ∃ p : ℕ, s.freePos[j]? = some (some p) ∧ s.free[p]? = some j
  freePos_bound : ∀ j < n, a.cols j ≠ .free → s.freePos[j]? = some none
  rows_unlinked : ∀ i < m, a.rows i = .dropped → s.rows.next[i]? = some none ∧ s.rows.prev[i]? = some none
  bound_unlinked : ∀ j < n, a.cols j = .free → s.bound.next[j]? = some none ∧ s.bound.prev[j]? = some none
  takeDropped : s.takeDropped.1.toList = a.dropped

/-- What one operation after the other keeps: the lists agree with the statuses, the statuses are those of the
replay, and each bound column was bound before those behind it. -/
structure Tracks (s : ActiveSet) (m n : ℕ) (a : Sets) : Prop where
  rowsAgree : s.RowsAgree m n
  colsAgree : s.ColsAgree n
  rowAt_eq : ∀ i < m, s.rowAt i = a.rows i
  colAt_eq : ∀ j < n, s.colAt j = a.cols j
  bound : ∃ held, s.bound.Holds n held ∧ held.Pairwise fun j k => a.boundAt j < a.boundAt k
  boundAt_lt : ∀ j < n, a.cols j ≠ .free → a.boundAt j < a.clock
  dropped_eq : s.dropped.toList = a.dropped

theorem tracks_empty (m n : ℕ) : (empty m n).Tracks m n .initial where
  rowsAgree := rowsAgree_empty m n
  colsAgree := colsAgree_empty m n
  rowAt_eq := fun _ _ => rowAt_empty m n
  colAt_eq := fun _ _ => colAt_empty m n
  bound := ⟨[], IndexList.holds_empty n, List.Pairwise.nil⟩
  boundAt_lt := fun _ _ h => absurd rfl h
  dropped_eq := rfl

section Steps

variable {a : Sets}

/-- Operations on rows leave the columns alone. -/
theorem Tracks.of_rows (h : s.Tracks m n a) (hrows : s'.RowsAgree m n) {rows : IndexList}
    {rowStatus : Array RowStatus} {dropped : Array ℕ}
    (heq : s' = { s with rows := rows, rowStatus := rowStatus, dropped := dropped }) {a' : Sets}
    (hrowAt : ∀ i < m, s'.rowAt i = a'.rows i) (hcols : a'.cols = a.cols) (hboundAt : a'.boundAt = a.boundAt)
    (hclock : a.clock ≤ a'.clock) (hdropped : dropped.toList = a'.dropped) : s'.Tracks m n a' := by
  subst heq
  obtain ⟨held, hheld, hpair⟩ := h.bound
  refine ⟨hrows, h.colsAgree.of_bound_eq rfl rfl rfl rfl, hrowAt, fun j hj => ?_, ⟨held, hheld, ?_⟩,
    fun j hj hcol => ?_, hdropped⟩
  · rw [hcols, ← h.colAt_eq j hj]
    rfl
  · rwa [hboundAt]
  · rw [hcols] at hcol
    rw [hboundAt]
    exact (h.boundAt_lt j hj hcol).trans_le hclock

/-- A status is written at one row. -/
theorem Tracks.rowAt_update (h : s.Tracks m n a) (hi : i < m) {st : RowStatus}
    (hs : s'.rowStatus = s.rowStatus.setIfInBounds i st) : ∀ k < m, s'.rowAt k = Function.update a.rows i st k := by
  intro k hk
  rw [rowAt_set hs (h.rowsAgree.size_rowStatus ▸ hi), Function.update_apply, h.rowAt_eq k hk]

theorem Tracks.colAt_update (h : s.Tracks m n a) (hj : j < n) {st : ColumnStatus}
    (hs : s'.colStatus = s.colStatus.setIfInBounds j st) : ∀ k < n, s'.colAt k = Function.update a.cols j st k := by
  intro k hk
  rw [colAt_set hs (h.rowsAgree.size_colStatus ▸ hj), Function.update_apply, h.colAt_eq k hk]

theorem Tracks.activate_ok (h : s.Tracks m n a) {st : RowStatus} (hi : i < m) (hdrop : a.rows i = .dropped)
    (hst : st ≠ .dropped) : ∃ s', s.activate i st = .ok s' ∧ s'.Tracks m n (a.after (.activate i st)) := by
  obtain ⟨s', hok, hrows, rows, heq⟩ :=
    h.rowsAgree.activate_ok hi ((h.rowAt_eq i hi).trans hdrop) (isActive_iff_ne.2 hst)
  exact ⟨s', hok, h.of_rows hrows heq (h.rowAt_update hi (by rw [heq])) rfl rfl (Nat.le_succ _) h.dropped_eq⟩

theorem Tracks.deactivate_ok (h : s.Tracks m n a) (hi : i < m) (hact : a.rows i ≠ .dropped) :
    ∃ s', s.deactivate i = .ok s' ∧ s'.Tracks m n (a.after (.deactivate i)) := by
  obtain ⟨s', hok, hrows, rows, heq⟩ :=
    h.rowsAgree.deactivate_ok (isActive_iff_ne.2 fun hdrop => hact ((h.rowAt_eq i hi).symm.trans hdrop))
  refine ⟨s', hok, h.of_rows hrows heq (h.rowAt_update hi (by rw [heq])) rfl rfl (Nat.le_succ _) ?_⟩
  rw [Array.toList_push, h.dropped_eq]
  rfl

theorem Tracks.takeDropped_ok (h : s.Tracks m n a) : s.takeDropped.2.Tracks m n (a.after .takeDropped) := by
  have hrows : s.takeDropped.2.RowsAgree m n := h.rowsAgree.of_rows_eq rfl rfl rfl
  exact h.of_rows hrows rfl h.rowAt_eq rfl rfl (Nat.le_succ _) rfl

theorem Tracks.hold_ok (h : s.Tracks m n a) (side : Side) (hj : j < n) :
    ∃ s', s.activateBound j side = .ok s' ∧ s'.Tracks m n (a.after (.hold j side)) := by
  obtain ⟨held, hheld, hpair⟩ := h.bound
  obtain ⟨s', hok, hcols, hbound⟩ := h.colsAgree.activateBound_ok side h.rowsAgree.size_colStatus hj
  obtain ⟨-, bound, free, freePos, heq⟩ := activateBound_eq hok
  have hstatus : ∀ k < n, s'.colAt k = Function.update a.cols j side.columnStatus k :=
    h.colAt_update hj (by rw [heq])
  have hlast : ∀ k ∈ held, a.boundAt k < a.clock := fun k hk => by
    have hkn := hheld.lt k hk
    obtain ⟨xs, hxs, hmem⟩ := h.colsAgree.bound
    refine h.boundAt_lt k hkn ?_
    rw [← h.colAt_eq k hkn]
    exact (hmem k hkn).1 (hxs.unique hheld ▸ hk)
  refine ⟨s', hok, h.rowsAgree.of_rows_eq (by rw [heq]) (by rw [heq]) (by rw [heq]; simp), hcols, fun i hi => ?_,
    hstatus, ⟨_, hbound held hheld, ?_⟩, fun k hk hcol => ?_, by rw [heq]; exact h.dropped_eq⟩
  · rw [show s'.rowAt = s.rowAt by rw [heq]; rfl]
    exact h.rowAt_eq i hi
  · rw [h.colAt_eq j hj]
    show List.Pairwise (fun k l => (if a.cols j = .free then Function.update a.boundAt j a.clock else a.boundAt) k <
      (if a.cols j = .free then Function.update a.boundAt j a.clock else a.boundAt) l) _
    split_ifs with hfree
    · have hnot : j ∉ held := fun hin => by
        obtain ⟨xs, hxs, hmem⟩ := h.colsAgree.bound
        exact (hmem j hj).1 (hxs.unique hheld ▸ hin) ((h.colAt_eq j hj).trans hfree)
      have hother : ∀ k ∈ held, Function.update a.boundAt j a.clock k = a.boundAt k := fun k hk =>
        Function.update_of_ne (fun hkj : k = j => hnot (hkj ▸ hk)) _ _
      rw [List.pairwise_append]
      refine ⟨hpair.imp_of_mem fun hk hl hkl => ?_, List.pairwise_singleton _ _, fun k hk l hl => ?_⟩
      · rwa [hother _ hk, hother _ hl]
      · rw [List.mem_singleton.1 hl, Function.update_self, hother k hk]
        exact hlast k hk
    · exact hpair
  · show (if a.cols j = .free then Function.update a.boundAt j a.clock else a.boundAt) k < a.clock + 1
    change Function.update a.cols j side.columnStatus k ≠ .free at hcol
    by_cases hkj : k = j
    · subst hkj
      split_ifs with hfree
      · rw [Function.update_self]
        exact Nat.lt_succ_self _
      · exact (h.boundAt_lt k hk hfree).trans (Nat.lt_succ_self _)
    · rw [Function.update_of_ne hkj] at hcol
      have hlt := (h.boundAt_lt k hk hcol).trans (Nat.lt_succ_self _)
      split_ifs
      · rwa [Function.update_of_ne hkj]
      · exact hlt

theorem Tracks.release_ok (h : s.Tracks m n a) (hj : j < n) (hheld : a.cols j ≠ .free) :
    ∃ s', s.release j = .ok s' ∧ s'.Tracks m n (a.after (.release j)) := by
  obtain ⟨held, hholds, hpair⟩ := h.bound
  obtain ⟨s', hok, hcols, hbound⟩ := h.colsAgree.release_ok h.rowsAgree.size_colStatus hj
    (by rwa [h.colAt_eq j hj])
  obtain ⟨-, bound, free, freePos, heq⟩ := release_eq hok
  refine ⟨s', hok, h.rowsAgree.of_rows_eq (by rw [heq]) (by rw [heq]) (by rw [heq]; simp), hcols, fun i hi => ?_,
    h.colAt_update hj (by rw [heq]), ⟨_, hbound held hholds, hpair.sublist List.erase_sublist⟩, fun k hk hcol => ?_,
    by rw [heq]; exact h.dropped_eq⟩
  · rw [show s'.rowAt = s.rowAt by rw [heq]; rfl]
    exact h.rowAt_eq i hi
  · change Function.update a.cols j .free k ≠ .free at hcol
    have hkj : k ≠ j := by
      rintro rfl
      exact hcol (Function.update_self ..)
    rw [Function.update_of_ne hkj] at hcol
    exact (h.boundAt_lt k hk hcol).trans (Nat.lt_succ_self _)

/-- One admitted operation. -/
theorem Tracks.run_ok (h : s.Tracks m n a) {step : Step} (hstep : step.Admitted m n a) :
    ∃ s', step.run s = .ok s' ∧ s'.Tracks m n (a.after step) := by
  cases step with
  | activate i status => exact h.activate_ok hstep.1 hstep.2.1 hstep.2.2
  | deactivate i => exact h.deactivate_ok hstep.1 hstep.2
  | hold j side => exact h.hold_ok side hstep
  | release j => exact h.release_ok hstep.1 hstep.2
  | takeDropped => exact ⟨_, rfl, h.takeDropped_ok⟩

end Steps

/-- What a working set that follows the replay tells. -/
theorem Tracks.refines {a : Sets} (h : s.Tracks m n a) : s.Refines m n a := by
  obtain ⟨held, hheld, hpair⟩ := h.bound
  have hmem : ∀ j < n, j ∈ held ↔ a.cols j ≠ .free := fun j hj => by
    obtain ⟨xs, hxs, hmem⟩ := h.colsAgree.bound
    rw [← hxs.unique hheld, hmem j hj, h.colAt_eq j hj]
  have hactive : s.activeList = a.active m := by
    rw [activeList, Sets.active, h.rowsAgree.size_rowStatus]
    refine List.filter_congr fun i hi => ?_
    rw [h.rowAt_eq i (List.mem_range.1 hi), Bool.eq_iff_iff, isActive_iff_ne, decide_eq_true_eq]
  have hrows := h.rowsAgree.rows
  rw [hactive] at hrows
  have hplace : ∀ j < n, a.cols j = .free → ∃ p : ℕ, s.freePos[j]? = some (some p) ∧ s.free[p]? = some j :=
    fun j hj hfree => by
      obtain ⟨p, hp⟩ := (h.colsAgree.free_iff j).2 ⟨hj, (h.colAt_eq j hj).trans hfree⟩
      exact ⟨p, (h.colsAgree.place_iff j hj p).2 hp, hp⟩
  exact {
    isConsistent := isConsistent_ok h.rowsAgree h.colsAgree
    rowStatus := fun i hi => by
      rw [fetch_rowStatus (h.rowsAgree.size_rowStatus ▸ hi), h.rowAt_eq i hi]
    colStatus := fun j hj => by
      rw [fetch_colStatus (h.rowsAgree.size_colStatus ▸ hj), h.colAt_eq j hj]
    rows := hrows.toList_eq
    rows_backwards := hrows.backwards_eq
    bound := ⟨held, hheld.toList_eq, fun j =>
      ⟨fun hj => ⟨hheld.lt j hj, (hmem j (hheld.lt j hj)).1 hj⟩, fun hj => (hmem j hj.1).2 hj.2⟩, hpair⟩
    free_nodup := h.colsAgree.nodup_free
    mem_free := fun j => by
      rw [h.colsAgree.mem_free_iff]
      exact and_congr_right fun hj => by rw [h.colAt_eq j hj]
    freePos := hplace
    freePos_bound := fun j hj hcol => by
      have hlt : j < s.freePos.size := h.colsAgree.size_freePos ▸ hj
      cases hpos : s.freePos[j] with
      | none => rw [Array.getElem?_eq_getElem hlt, hpos]
      | some p =>
          have hget : s.freePos[j]? = some (some p) := by rw [Array.getElem?_eq_getElem hlt, hpos]
          have hfree := (h.colsAgree.free_iff j).1 ⟨p, (h.colsAgree.place_iff j hj p).1 hget⟩
          exact absurd ((h.colAt_eq j hj).symm.trans hfree.2) hcol
    rows_unlinked := fun i hi hdrop => hrows.unlinked i hi fun hin => by
      rw [Sets.active, List.mem_filter, decide_eq_true_eq] at hin
      exact hin.2 hdrop
    bound_unlinked := fun j hj hfree => hheld.unlinked j hj fun hin => (hmem j hj).1 hin hfree
    takeDropped := h.dropped_eq }

/-- A sequence of admitted operations. -/
theorem Tracks.foldlM_ok {a : Sets} (h : s.Tracks m n a) {steps : List Step} (hsteps : Admits m n a steps) :
    ∃ s', steps.foldlM Step.run s = .ok s' ∧ s'.Tracks m n (steps.foldl Sets.after a) := by
  induction steps generalizing s a with
  | nil => exact ⟨s, rfl, h⟩
  | cons step steps ih =>
      obtain ⟨s₁, hrun, h₁⟩ := h.run_ok hsteps.1
      obtain ⟨s', hok, h'⟩ := ih h₁ hsteps.2
      exact ⟨s', by rw [List.foldlM_cons, hrun, ok_bind, hok], h'⟩

/-- A working set that starts empty tells after every sequence of operations what the replay says. -/
theorem run_refines (m n : ℕ) (steps : List Step) (hsteps : Admits m n .initial steps) :
    (m < maxLength → n < maxLength → create m n = .ok (empty m n)) ∧
      ∃ s, steps.foldlM Step.run (empty m n) = .ok s ∧ s.Refines m n (steps.foldl Sets.after .initial) := by
  refine ⟨fun hm hn => ?_, ?_⟩
  · rw [create, requireLength_eq_ok_iff.2 hm, ok_bind, requireLength_eq_ok_iff.2 hn, ok_bind]
    rfl
  · obtain ⟨s, hok, htracks⟩ := (tracks_empty m n).foldlM_ok hsteps
    exact ⟨s, hok, htracks.refines⟩

/-- A row is dropped twice, and a column changes sides after another one was bound. -/
def sideSwitch : List Step :=
  [.activate 0 .atLower, .hold 1 .lower, .hold 0 .upper, .deactivate 0, .hold 1 .upper, .activate 0 .atUpper,
    .deactivate 0]

theorem run_refines_sideSwitch : ∃ s, sideSwitch.foldlM Step.run (empty 1 2) = .ok s ∧
    s.bound.toList = .ok [1, 0] ∧ s.takeDropped.1.toList = [0, 0] := by
  have hadmits : Admits 1 2 .initial sideSwitch := by
    simp [sideSwitch, Admits, Step.Admitted, Sets.after, Sets.initial]
  obtain ⟨s, hok, h⟩ := (run_refines 1 2 sideSwitch hadmits).2
  have hbound : (do (← sideSwitch.foldlM Step.run (empty 1 2)).bound.toList) = .ok [1, 0] := by
    decide +kernel
  rw [hok, ok_bind] at hbound
  exact ⟨s, hok, hbound, h.takeDropped⟩

end PolyProjection.ActiveSet
