import Mathlib
import PolyProjection.Proofs.Dissection
import PolyProjection.Proofs.Engine.Search

/-! What a search takes out of the working set. Rows of the job are dropped and columns of the job are freed, one with
each event, and nothing comes back; so the walk ends, and it is carried out whatever the multipliers are. -/

namespace PolyProjection

set_option linter.unusedSectionVars false

variable {K : Type} [Field K] [LinearOrder K] [IsStrictOrderedRing K]

namespace Engine

/-- How many rows were dropped and columns freed so far. -/
def shed (e : Engine K) : ℕ :=
  e.stats.rowsDropped + e.stats.colsFreed

/-- How many rows are active and columns held at a bound. -/
def standing (e : Engine K) : ℕ :=
  e.set.activeList.length + e.set.heldList.length

/-- The counts of rows and columns that came in or went out are the same. -/
structure SameTally (e e' : Engine K) : Prop where
  added : e'.stats.rowsAdded = e.stats.rowsAdded
  dropped : e'.stats.rowsDropped = e.stats.rowsDropped
  freed : e'.stats.colsFreed = e.stats.colsFreed
  bound : e'.stats.colsBound = e.stats.colsBound

/-- Inequality rows of a range were dropped and bound columns of a range freed, and each of them was counted. -/
structure Sheds (rows cols : IndexRange) (e e' : Engine K) : Prop where
  problem : e'.problem = e.problem
  row : ∀ i, e'.set.rowAt i = e.set.rowAt i ∨ (rows.start ≤ i ∧ i < rows.stop) ∧ e'.set.rowAt i = .dropped ∧
    (e.set.rowAt i = .atLower ∨ e.set.rowAt i = .atUpper)
  col : ∀ j, e'.set.colAt j = e.set.colAt j ∨ (cols.start ≤ j ∧ j < cols.stop) ∧ e'.set.colAt j = .free
  added : e'.stats.rowsAdded = e.stats.rowsAdded
  bound : e'.stats.colsBound = e.stats.colsBound
  dropped : e'.stats.rowsDropped + e'.set.activeList.length = e.stats.rowsDropped + e.set.activeList.length
  freed : e'.stats.colsFreed + e'.set.heldList.length = e.stats.colsFreed + e.set.heldList.length

variable {e e' e'' : Engine K} {rows cols : IndexRange} {i j : ℕ}

theorem SameTally.refl (e : Engine K) : SameTally e e :=
  ⟨rfl, rfl, rfl, rfl⟩

theorem SameTally.shed_eq (h : SameTally e e') : e'.shed = e.shed := by
  rw [shed, shed, h.dropped, h.freed]

theorem sheds_of_same (hproblem : e'.problem = e.problem) (hrow : ∀ i, e'.set.rowAt i = e.set.rowAt i)
    (hcol : ∀ j, e'.set.colAt j = e.set.colAt j) (htally : SameTally e e') : Sheds rows cols e e' where
  problem := hproblem
  row := fun i => .inl (hrow i)
  col := fun j => .inl (hcol j)
  added := htally.added
  bound := htally.bound
  dropped := by rw [htally.dropped, ActiveSet.activeList_congr hrow]
  freed := by rw [htally.freed, ActiveSet.heldList_congr hcol]

theorem Sheds.refl (e : Engine K) : Sheds rows cols e e :=
  sheds_of_same rfl (fun _ => rfl) (fun _ => rfl) (SameTally.refl e)

theorem Sheds.trans (h : Sheds rows cols e e') (h' : Sheds rows cols e' e'') : Sheds rows cols e e'' where
  problem := h'.problem.trans h.problem
  row := fun i => by
    rcases h'.row i with heq' | ⟨hi, hdrop, hside⟩
    · rw [heq']
      exact h.row i
    · rcases h.row i with heq | ⟨-, hdrop', -⟩
      · exact .inr ⟨hi, hdrop, heq ▸ hside⟩
      · rw [hdrop'] at hside
        rcases hside with hside | hside <;> cases hside
  col := fun j => by
    rcases h'.col j with heq' | hfree
    · rw [heq']
      exact h.col j
    · exact .inr hfree
  added := h'.added.trans h.added
  bound := h'.bound.trans h.bound
  dropped := h'.dropped.trans h.dropped
  freed := h'.freed.trans h.freed

theorem Sheds.mono (h : Sheds rows cols e e') {rows' cols' : IndexRange}
    (hrows : rows'.start ≤ rows.start ∧ rows.stop ≤ rows'.stop)
    (hcols : cols'.start ≤ cols.start ∧ cols.stop ≤ cols'.stop) : Sheds rows' cols' e e' where
  problem := h.problem
  row := fun i => (h.row i).imp_right fun ⟨hi, hrest⟩ => ⟨⟨hrows.1.trans hi.1, hi.2.trans_le hrows.2⟩, hrest⟩
  col := fun j => (h.col j).imp_right fun ⟨hj, hrest⟩ => ⟨⟨hcols.1.trans hj.1, hj.2.trans_le hcols.2⟩, hrest⟩
  added := h.added
  bound := h.bound
  dropped := h.dropped
  freed := h.freed

/-- A row that is active afterwards was active with the same status. -/
theorem Sheds.rowAt_of_active (h : Sheds rows cols e e') (hact : (e'.set.rowAt i).isActive = true) :
    e'.set.rowAt i = e.set.rowAt i := by
  rcases h.row i with heq | ⟨-, hdrop, -⟩
  · exact heq
  · rw [hdrop] at hact
    cases hact

/-- A column that is held afterwards was held at the same side. -/
theorem Sheds.colAt_of_held (h : Sheds rows cols e e') (hheld : e'.set.colAt j ≠ .free) :
    e'.set.colAt j = e.set.colAt j := by
  rcases h.col j with heq | ⟨-, hfree⟩
  · exact heq
  · exact absurd hfree hheld

theorem Sheds.activeList_subset (h : Sheds rows cols e e') : e'.set.activeList ⊆ e.set.activeList := fun i hi => by
  rw [ActiveSet.mem_activeList_iff] at hi ⊢
  rwa [← h.rowAt_of_active hi]

theorem Sheds.heldList_subset (h : Sheds rows cols e e') : e'.set.heldList ⊆ e.set.heldList := fun j hj => by
  rw [ActiveSet.mem_heldList] at hj ⊢
  rwa [← h.colAt_of_held hj]

theorem Sheds.length_le (h : Sheds rows cols e e') : e'.set.activeList.length ≤ e.set.activeList.length ∧
    e'.set.heldList.length ≤ e.set.heldList.length :=
  ⟨(e'.set.nodup_activeList.subperm h.activeList_subset).length_le,
    (e'.set.nodup_heldList.subperm h.heldList_subset).length_le⟩

theorem Sheds.counted (h : Sheds rows cols e e') : e.stats.rowsDropped ≤ e'.stats.rowsDropped ∧
    e.stats.colsFreed ≤ e'.stats.colsFreed := by
  have hle := h.length_le
  have hdropped := h.dropped
  have hfreed := h.freed
  omega

theorem Sheds.shed_standing (h : Sheds rows cols e e') : e'.shed + e'.standing = e.shed + e.standing := by
  have hdropped := h.dropped
  have hfreed := h.freed
  simp only [shed, standing]
  omega

/-- At most the active rows and the bound columns of the ranges were taken out. -/
theorem Sheds.shed_le (h : Sheds rows cols e e') : e'.shed ≤ e.shed +
    ((e.set.activeBetween rows.start rows.stop).length + (e.set.heldBetween cols.start cols.stop).length) := by
  have hrows : e.set.activeList ⊆ e'.set.activeList ++ e.set.activeBetween rows.start rows.stop := fun i hi => by
    have hact := ActiveSet.mem_activeList_iff.1 hi
    rw [List.mem_append, ActiveSet.mem_activeList_iff, ActiveSet.mem_activeBetween]
    rcases h.row i with heq | ⟨hin, -, -⟩
    · exact .inl (by rwa [heq])
    · exact .inr ⟨hact, hin⟩
  have hcols : e.set.heldList ⊆ e'.set.heldList ++ e.set.heldBetween cols.start cols.stop := fun j hj => by
    rw [List.mem_append, ActiveSet.heldBetween, List.mem_filter]
    rcases h.col j with heq | ⟨hin, -⟩
    · exact .inl (ActiveSet.mem_heldList.2 (by rw [heq]; exact ActiveSet.mem_heldList.1 hj))
    · exact .inr ⟨hj, by simp [hin]⟩
  have hrowsLe := (e.set.nodup_activeList.subperm hrows).length_le
  have hcolsLe := (e.set.nodup_heldList.subperm hcols).length_le
  rw [List.length_append] at hrowsLe hcolsLe
  have hdropped := h.dropped
  have hfreed := h.freed
  simp only [shed]
  omega

end Engine

namespace LineSearch

/-- The candidates are bound columns of the job and rows of the job that come to leave. -/
structure Pursues (rows cols : IndexRange) (s : LineSearch K) : Prop where
  column_key : ∀ j < s.engine.problem.ncols, ∀ v, s.engine.heap.keyAt j = some v →
    (cols.start ≤ j ∧ j < cols.stop) ∧ s.engine.set.colAt j ≠ .free
  row_key : ∀ i v, s.engine.heap.keyAt (s.engine.problem.ncols + i) = some v → (rows.start ≤ i ∧ i < rows.stop) ∧
    Engine.movesToZero (s.engine.set.rowAt i) (coord s.engine.work.t i) = true

/-- What holds between two events of a search over the rows and columns of a job. -/
structure Hunts (rows cols : IndexRange) (s : LineSearch K) : Prop extends Pursues rows cols s where
  sound : s.engine.Sound

variable {s s' : LineSearch K} {rows cols : IndexRange} {id j k : ℕ} {key delta : K}

theorem active_of_movesToZero {st : RowStatus} {t : K} (h : Engine.movesToZero st t = true) : st.isActive = true := by
  rcases inequality_of_movesToZero h with rfl | rfl <;> rfl

/-- A freed column of the job leaves the held ones. -/
theorem ColumnFreed.sheds (hf : ColumnFreed s s' j) (hr : s.engine.Regular) (hin : cols.start ≤ j ∧ j < cols.stop)
    (hheld : s.engine.set.colAt j ≠ .free) :
    s.engine.Sheds rows cols s'.engine ∧ s'.engine.shed = s.engine.shed + 1 := by
  have hlength := ActiveSet.length_heldList_of_free hheld (hf.colAt hr)
  refine ⟨⟨hf.problem, fun i => .inl (hf.rowAt i), fun k => ?_, by rw [hf.stats], by rw [hf.stats], ?_, ?_⟩, ?_⟩
  · rw [hf.colAt hr]
    split_ifs with hk
    · exact .inr ⟨hk ▸ hin, rfl⟩
    · exact .inl rfl
  · rw [hf.stats, ActiveSet.activeList_congr hf.rowAt]
  · rw [hf.stats]
    dsimp only
    omega
  · simp only [Engine.shed, hf.stats]
    omega

/-- A dropped row of the job, an inequality, leaves the active ones. -/
theorem RowDropped.sheds (hd : RowDropped s s' k delta) (hr : s.engine.Regular) (hin : rows.start ≤ k ∧ k < rows.stop)
    (hside : s.engine.set.rowAt k = .atLower ∨ s.engine.set.rowAt k = .atUpper) :
    s.engine.Sheds rows cols s'.engine ∧ s'.engine.shed = s.engine.shed + 1 := by
  have hlength := ActiveSet.length_activeList_of_drop hd.active (hd.rowAt hr)
  refine ⟨⟨hd.problem, fun i => ?_, fun j => .inl (hd.colAt j), by rw [hd.stats], by rw [hd.stats], ?_, ?_⟩, ?_⟩
  · rw [hd.rowAt hr]
    split_ifs with hi
    · exact .inr ⟨hi ▸ hin, rfl, hi ▸ hside⟩
    · exact .inl rfl
  · rw [hd.stats]
    dsimp only
    omega
  · rw [hd.stats, ActiveSet.heldList_congr hd.colAt]
  · simp only [Engine.shed, hd.stats]
    omega

/-- An event takes one row or one column of the job out of the working set. -/
theorem Event.sheds (he : Event s s' id key) (h : Hunts rows cols s) :
    s.engine.Sheds rows cols s'.engine ∧ s'.engine.shed = s.engine.shed + 1 := by
  obtain ⟨heap, s₁, hvalid, -, hevent, rfl⟩ := he.freed_or_dropped
  have hr : (s.goTo heap (max 0 key)).engine.Regular := h.sound.regular.of_heap hvalid
  have hgo : s.engine.Sheds rows cols (s.goTo heap (max 0 key)).engine :=
    Engine.sheds_of_same rfl (fun _ => rfl) (fun _ => rfl) ⟨rfl, rfl, rfl, rfl⟩
  suffices hshed : (s.goTo heap (max 0 key)).engine.Sheds rows cols s₁.engine ∧ s₁.engine.shed = s.engine.shed + 1 from
    ⟨hgo.trans hshed.1, hshed.2⟩
  rcases hevent with ⟨hid, hf⟩ | ⟨k, delta, rfl, hd⟩
  · obtain ⟨hin, hheld⟩ := h.column_key id hid key he.first.1
    exact hf.sheds hr hin hheld
  · obtain ⟨hin, hmoves⟩ := h.row_key k key he.first.1
    exact hd.sheds hr hin (inequality_of_movesToZero hmoves)

section Pursues

variable {heap : BreakHeap K} {s₁ : LineSearch K} (h : Pursues rows cols s)
  (hkeys : ∀ c, heap.keyAt c = if c = id then none else s.engine.heap.keyAt c)
  (hr : (s.goTo heap (max 0 key)).engine.Regular)

include h hkeys hr

theorem Pursues.of_columnFreed (hf : ColumnFreed (s.goTo heap (max 0 key)) s₁ id) : Pursues rows cols s₁ := by
  have hproblem : s₁.engine.problem = s.engine.problem := hf.problem
  have hheap : s₁.engine.heap = heap := hf.heap
  have ht : s₁.engine.work.t = s.engine.work.t := hf.t
  have hrow : ∀ i, s₁.engine.set.rowAt i = s.engine.set.rowAt i := hf.rowAt
  have hcol : ∀ j, s₁.engine.set.colAt j = if j = id then .free else s.engine.set.colAt j := hf.colAt hr
  refine ⟨fun j hj v hv => ?_, fun i v hv => ?_⟩
  · obtain ⟨hne, hv⟩ := keyAt_of_left hkeys (hheap ▸ hv)
    rw [hcol, if_neg hne]
    exact h.column_key j (hproblem ▸ hj) v hv
  · rw [hheap, hproblem] at hv
    rw [ht, hrow]
    exact h.row_key i v (keyAt_of_left hkeys hv).2

/-- A row of the job is met by columns of the job only, so the new candidates are of the job. -/
theorem Pursues.of_rowDropped (hid : id = s.engine.problem.ncols + k)
    (hd : RowDropped (s.goTo heap (max 0 key)) s₁ k delta)
    (hinner : ∀ j ∈ (s.engine.problem.aT.columnEntries k).map Prod.fst, cols.start ≤ j ∧ j < cols.stop) :
    Pursues rows cols s₁ := by
  have hproblem : s₁.engine.problem = s.engine.problem := hd.problem
  have ht : s₁.engine.work.t = s.engine.work.t := hd.t
  have hrow : ∀ i, s₁.engine.set.rowAt i = if i = k then .dropped else s.engine.set.rowAt i := hd.rowAt hr
  have hcol : ∀ j, s₁.engine.set.colAt j = s.engine.set.colAt j := hd.colAt
  refine ⟨fun j hj v hv => ?_, fun i v hv => ?_⟩
  · rw [hcol]
    rw [hd.keys] at hv
    split_ifs at hv with hmem
    · exact ⟨hinner j hmem.1, hmem.2⟩
    · exact h.column_key j (hproblem ▸ hj) v (keyAt_of_left hkeys hv).2
  · rw [hproblem] at hv
    obtain ⟨hne, hv⟩ := keyAt_of_left hkeys ((hd.keyAt_row hr i).symm.trans hv)
    rw [ht, hrow, if_neg fun hik => hne (by rw [hid, hik]; rfl)]
    exact h.row_key i v hv

end Pursues

/-- The candidates after an event are still bound columns and leaving rows of the job. -/
theorem Event.pursues (he : Event s s' id key) (hr : s.engine.Regular) (h : Pursues rows cols s)
    (hinner : ∀ k, rows.start ≤ k ∧ k < rows.stop → ∀ j ∈ (s.engine.problem.aT.columnEntries k).map Prod.fst,
      cols.start ≤ j ∧ j < cols.stop) : Pursues rows cols s' := by
  obtain ⟨heap, s₁, hvalid, hkeys, hevent, rfl⟩ := he.freed_or_dropped
  have h₁ : Pursues rows cols s₁ := by
    rcases hevent with ⟨-, hf⟩ | ⟨k, delta, rfl, hd⟩
    · exact h.of_columnFreed hkeys (hr.of_heap hvalid) hf
    · exact h.of_rowDropped hkeys (hr.of_heap hvalid) rfl hd (hinner k (h.row_key k key he.first.1).1)
  exact { h₁ with }

/-- A candidate that the walk comes to is taken out. -/
theorem Hunts.commitCandidate_ok (h : Hunts rows cols s) (hkey : s.engine.heap.keyAt id = some key)
    (hs : (s.goTo heap (max 0 key)).engine.Sound) :
    ∃ s₁, (s.goTo heap (max 0 key)).commitCandidate id = .ok s₁ ∧ s₁.engine.Sound ∧ s₁.changed = true := by
  unfold commitCandidate
  have hproblem : (s.goTo heap (max 0 key)).engine.problem = s.engine.problem := rfl
  dsimp only
  split_ifs with hid
  · obtain ⟨s₁, hfree, hs₁⟩ := freeColumn_ok hs hid (h.column_key id (hproblem ▸ hid) key hkey).2
    exact ⟨{ s₁ with changed := true }, by rw [hfree]; rfl, hs₁, rfl⟩
  · rw [hproblem] at hid ⊢
    obtain ⟨k, rfl⟩ : ∃ k, id = s.engine.problem.ncols + k := ⟨id - s.engine.problem.ncols, by omega⟩
    rw [show s.engine.problem.ncols + k - s.engine.problem.ncols = k by omega]
    obtain ⟨s₁, hdrop, hs₁⟩ := dropRow_ok hs (active_of_movesToZero (h.row_key k key hkey).2)
    exact ⟨{ s₁ with changed := true }, by rw [hdrop]; rfl, hs₁, rfl⟩

/-- One round of the walk ends it or carries out an event. -/
theorem round_ok (h : Hunts rows cols s) (hslope : 0 < s.slope) (events : ℕ) :
    (∃ flag s', walk (events + 1) s = .ok (flag, s') ∧ s'.engine = s.engine ∧ s'.changed = s.changed) ∨
    ∃ s₁ id key, Event s s₁ id key ∧ s₁.engine.Sound ∧ s₁.changed = true ∧ walk (events + 1) s =
      if s₁.slope ≤ 0 then .ok (.nondifferentiableOptimum, s₁) else walk events s₁ := by
  have hr := h.sound.regular
  rw [walk]
  by_cases hcurvature : s.curvature ≤ 0
  · rw [if_pos hcurvature]
    exact .inl ⟨_, _, rfl, rfl, rfl⟩
  rw [if_neg hcurvature]
  have hne : s.curvature ≠ 0 := (not_le.1 hcurvature).ne'
  simp only [Scalar.quotient_of_ne_zero hne, ok_bind]
  rcases hr.heap.peekMin_eq with ⟨-, hpeek⟩ | ⟨id, hpeek, hhas, -⟩
  · rw [hpeek]
    exact .inl ⟨_, _, rfl, rfl, rfl⟩
  obtain ⟨hkey, hfirst⟩ := hr.heap.of_peekMin hpeek
  set key := coord s.engine.heap.keys id
  obtain ⟨heap, hpop, hvalid, -⟩ := hr.heap.popMin_ok hpeek hhas
  rw [hpeek, ok_bind]
  simp only [Scalar.max_exact]
  split_ifs with hnext hbudget hahead
  · exact .inl ⟨_, _, rfl, rfl, rfl⟩
  · exact .inl ⟨_, _, rfl, rfl, rfl⟩
  · have hgap : s.slope - (s.slope - s.curvature * (max 0 key - s.step)) ≠ 0 := by
      rw [sub_ne_zero]
      exact (hahead.trans_lt hslope).ne'
    rw [Scalar.quotient_of_ne_zero hgap]
    exact .inl ⟨_, _, rfl, rfl, rfl⟩
  · have hs : (s.goTo heap (max 0 key)).engine.Sound := h.sound.of_heap hvalid
    obtain ⟨s₁, hcommit, hs₁, hchanged⟩ := h.commitCandidate_ok hkey hs
    obtain ⟨hvalid', hkeys⟩ := hr.heap.of_popMin hpeek hpop
    obtain ⟨s₂, hevent, rfl⟩ := of_commitCandidate hs.regular hcommit
    refine .inr ⟨{ s₂ with changed := true }, id, key, ⟨hslope, not_le.1 hcurvature, not_le.1 hnext, not_le.1 hahead,
      ⟨hkey, hfirst⟩, ⟨hpeek, _, heap, hpop, hcommit⟩, heap, s₂, hvalid', hkeys, hevent, rfl⟩, hs₁, rfl, ?_⟩
    rw [hpop, ok_bind]
    dsimp only
    exact (congrArg (· >>= _) hcommit).trans rfl

/-- A walk ends before it runs out of rows and columns to take out. -/
theorem walk_ok (h : Hunts rows cols s) (hslope : 0 < s.slope) (events : ℕ) (hevents : s.engine.standing < events)
    (hinner : ∀ k, rows.start ≤ k ∧ k < rows.stop → ∀ j ∈ (s.engine.problem.aT.columnEntries k).map Prod.fst,
      cols.start ≤ j ∧ j < cols.stop) :
    ∃ flag s', walk events s = .ok (flag, s') ∧ s'.engine.Sound ∧ s.engine.Sheds rows cols s'.engine ∧
      (s'.changed = true ↔ s.changed = true ∨ s.engine.shed < s'.engine.shed) := by
  induction events generalizing s with
  | zero => omega
  | succ events ih =>
      rcases round_ok h hslope events with ⟨flag, s', hwalk, hengine, hchanged⟩ | ⟨s₁, id, key, he, hs₁, hchanged, hwalk⟩
      · refine ⟨flag, s', hwalk, hengine ▸ h.sound, hengine ▸ Engine.Sheds.refl _, ?_⟩
        rw [hchanged, hengine]
        simp
      · obtain ⟨hsheds, hcount⟩ := he.sheds h
        rw [hwalk]
        split_ifs with hstop
        · refine ⟨_, s₁, rfl, hs₁, hsheds, ?_⟩
          simp [hchanged, hcount]
        · have htotal := hsheds.shed_standing
          obtain ⟨flag, s', hok, hs', hsheds', hchanged'⟩ :=
            ih ⟨he.pursues h.sound.regular h.toPursues hinner, hs₁⟩ (not_le.1 hstop) (by omega)
              (by rw [hsheds.problem]; exact hinner)
          refine ⟨flag, s', hok, hs', hsheds.trans hsheds', ?_⟩
          have hle := hsheds'.counted
          have hmore : s.engine.shed < s'.engine.shed := by
            simp only [Engine.shed] at hcount ⊢
            omega
          simp [hchanged'.2 (.inl hchanged), hmore]

end LineSearch

namespace Engine

variable {e e' : Engine K} {rows cols : IndexRange}

theorem Sound.advanceBy_ok (hs : e.Sound) (hrows : rows.stop ≤ e.problem.nrows) (hcols : cols.stop ≤ e.problem.ncols)
    (step : K) : ∃ e', e.advanceBy rows cols step = .ok e' ∧ e'.Sound := by
  obtain ⟨dlambda, hdlambda, hsize⟩ := foldlM_carries (fun d : Array K => d.size = e.problem.nrows)
    (l := span rows.start rows.stop) (f := fun d i => do
      if ← e.set.isRowActive i then
        let t ← fetch e.work.t i
        adjust d i (· + step * t)
      else return d) hs.regular.size_dlambda fun i hi d hd => by
    have hi : i < e.problem.nrows := (mem_span.1 hi).2.trans_le hrows
    simp only [hs.isRowActive_ok hi, ok_bind]
    split_ifs
    · rw [fetch_coord (by rw [hs.work.t]; exact hi), ok_bind, adjust_coord _ (by rw [hd]; exact hi)]
      exact ⟨_, rfl, by rw [Array.size_setIfInBounds]; exact hd⟩
    · exact ⟨d, rfl, hd⟩
  obtain ⟨c, hc, hcsize⟩ := foldlM_carries (fun c : Array K => c.size = e.problem.ncols)
    (l := span cols.start cols.stop) (f := fun c j => do
      let p ← fetch e.work.pa j
      adjust c j (· + step * p)) hs.work.c fun j hj c hc => by
    have hj : j < e.problem.ncols := (mem_span.1 hj).2.trans_le hcols
    rw [fetch_coord (by rw [hs.work.pa]; exact hj), ok_bind, adjust_coord _ (by rw [hc]; exact hj)]
    exact ⟨_, rfl, by rw [Array.size_setIfInBounds]; exact hc⟩
  unfold advanceBy
  rw [hdlambda, ok_bind, hc, ok_bind]
  exact ⟨_, rfl, ⟨{ hs.regular with size_dlambda := hsize }, { hs.work with c := hcsize }, hs.columns⟩⟩

/-- What only computes the vectors and the heap of a search takes nothing out. -/
theorem sheds_of_vectors (rows cols : IndexRange) {work : Workspace K} {dlambda : Array K} {heap : BreakHeap K}
    (he : e' = { e with dlambda := dlambda, work := work, heap := heap }) :
    e.Sheds rows cols e' ∧ e'.shed = e.shed ∧ e'.problem = e.problem := by
  subst he
  exact ⟨sheds_of_same rfl (fun _ => rfl) (fun _ => rfl) ⟨rfl, rfl, rfl, rfl⟩, rfl, rfl⟩

/-- Whatever the step, to advance by it takes nothing out. -/
theorem Sound.advance_sheds (hs : e.Sound) (hrows : rows.stop ≤ e.problem.nrows) (hcols : cols.stop ≤ e.problem.ncols)
    (step : K) : ∃ e', e.advanceBy rows cols step = .ok e' ∧ e'.Sound ∧ e.Sheds rows cols e' ∧ e'.shed = e.shed := by
  obtain ⟨e', hadvance, hs'⟩ := hs.advanceBy_ok hrows hcols step
  obtain ⟨dlambda, c, he', -⟩ := hs.regular.of_advanceBy hrows hadvance
  obtain ⟨hsheds, hshed, -⟩ := sheds_of_vectors rows cols he'
  exact ⟨e', hadvance, hs', hsheds, hshed⟩

/-- A full heap of candidates holds bound columns of the job and rows of the job that come to leave. -/
theorem HasCandidates.pursues (hc : e.HasCandidates rows cols e') {a b : K} :
    LineSearch.Pursues rows cols ⟨e', 0, a, b, false, none⟩ := by
  obtain ⟨heap, rfl, hvalid, hcolumn, hrow⟩ := hc
  refine ⟨fun j hj v hv => ?_, fun i v hv => ?_⟩
  · have hv : heap.keyAt j = some v := hv
    rw [hcolumn j hj] at hv
    split_ifs at hv with hin
    unfold columnBreak? at hv
    split_ifs at hv with hmoves
    exact ⟨hin, held_of_movesInwards hmoves.1⟩
  · have hv : heap.keyAt (e.problem.ncols + i) = some v := hv
    rw [hrow i] at hv
    split_ifs at hv with hin
    unfold rowBreak? at hv
    split_ifs at hv with hmoves
    exact ⟨⟨hin.1, hin.2.1⟩, hmoves.1⟩

theorem standing_le (hs : e.Sound) : e.standing ≤ e.problem.ncols + e.problem.nrows := by
  have hrows : e.set.activeList.length ≤ e.problem.nrows := by
    refine (List.length_filter_le _ _).trans ?_
    rw [List.length_range, hs.regular.set.size_rowStatus]
  have hcols : e.set.heldList.length ≤ e.problem.ncols := by
    refine (List.length_filter_le _ _).trans ?_
    rw [List.length_range, hs.regular.set.size_colStatus]
  simp only [standing]
  omega

/-- A search over a job is carried out; it only takes rows and columns of the job out, and it tells whether it did. -/
theorem Sound.lineSearch_ok (hp : e.problem.Accepted) (hs : e.Sound) {job : Job} (hjob : job.Covers e.problem.tree) :
    ∃ out e', e.lineSearch job.rows job.cols = .ok (out, e') ∧ e'.Sound ∧ e.Sheds job.rows job.cols e' ∧
      (out.changed = true ↔ e.shed < e'.shed) := by
  obtain ⟨ht, hnrows, hncols⟩ := hp.tree
  have hrows : job.rows.stop ≤ e.problem.nrows := hnrows ▸ ht.tested.subtreeRows_stop hjob.1
  have hcols : job.cols.stop ≤ e.problem.ncols := hncols ▸ ht.tested.subtreeCols_stop hjob.2
  obtain ⟨e₁, hok₁, hs₁⟩ := hs.setDirections_ok job.rows hcols
  obtain ⟨pa, he₁, -⟩ := hs.regular.of_setDirections hok₁
  obtain ⟨hsheds₁, hshed₁, hproblem₁⟩ := sheds_of_vectors job.rows job.cols he₁
  have hrows₁ : job.rows.stop ≤ e₁.problem.nrows := hproblem₁ ▸ hrows
  have hcols₁ : job.cols.stop ≤ e₁.problem.ncols := hproblem₁ ▸ hcols
  obtain ⟨⟨slope, curvature⟩, hslope⟩ := hs₁.startSlope_ok hrows₁ hcols₁
  unfold lineSearch
  rw [hok₁, ok_bind, hslope, ok_bind]
  dsimp only
  split_ifs with hflat
  · refine ⟨_, e₁, rfl, hs₁, hsheds₁, ?_⟩
    rw [hshed₁]
    simp
  obtain ⟨e₂, hok₂⟩ := hs₁.setCandidates_ok hrows₁ hcols₁
  have hc := hs₁.regular.of_setCandidates hrows₁ hok₂
  obtain ⟨heap, he₂, hvalid, -⟩ := id hc
  have hs₂ : e₂.Sound := he₂ ▸ hs₁.of_heap hvalid
  obtain ⟨hsheds₂, hshed₂, hproblem₂⟩ := sheds_of_vectors job.rows job.cols he₂
  have hrows₂ : job.rows.stop ≤ e₂.problem.nrows := hproblem₂ ▸ hrows₁
  have hcols₂ : job.cols.stop ≤ e₂.problem.ncols := hproblem₂ ▸ hcols₁
  rw [hok₂, ok_bind]
  split_ifs with hempty
  · obtain ⟨e', hadvance, hs', hsheds', hshed⟩ := hs₂.advance_sheds hrows₂ hcols₂ 1
    refine ⟨⟨.interior, 1, false, none⟩, e', ?_, hs', (hsheds₁.trans hsheds₂).trans hsheds', ?_⟩
    · simp only [pure_bind_ok, lt_irrefl, if_false, hadvance, ok_bind]
      rfl
    · rw [hshed, hshed₂, hshed₁]
      simp
  · obtain ⟨flag, s, hwalk, hs', hsheds, hchanged⟩ := LineSearch.walk_ok ⟨hc.pursues (a := slope) (b := curvature), hs₂⟩
      (not_le.1 hflat) (e₂.problem.ncols + e₂.problem.nrows + 1) (Nat.lt_succ_of_le (standing_le hs₂))
      fun k hk j hj => hp.mem_cols_of_transpose hjob ((hproblem₂.trans hproblem₁) ▸ hj) hk
    obtain ⟨e', hadvance, hs'', hsheds', hshed'⟩ :=
      hs'.advance_sheds (hsheds.problem ▸ hrows₂) (hsheds.problem ▸ hcols₂) (min 1 s.step)
    refine ⟨⟨if 1 < s.step then .truncated else flag, min 1 s.step, s.changed, if s.changed then s.mark else none⟩,
      e', ?_, hs'', ((hsheds₁.trans hsheds₂).trans hsheds).trans hsheds', ?_⟩
    · rw [hwalk, ok_bind]
      by_cases hlong : 1 < s.step
      · rw [min_eq_left hlong.le] at hadvance ⊢
        simp only [if_pos hlong, hadvance, ok_bind]
        rfl
      · rw [min_eq_right (not_lt.1 hlong)] at hadvance ⊢
        simp only [if_neg hlong, hadvance, ok_bind]
        rfl
    · rw [hshed', ← hshed₁, ← hshed₂, hchanged]
      simp

end Engine

end PolyProjection
