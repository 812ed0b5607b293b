import Mathlib
import PolyProjection.Proofs.Engine.Sides

/-! Searches keep the bound columns beyond their bounds. A search stops at each break value, where a column comes to its
bound and is freed, or where the multiplier of a row becomes zero and the row is dropped. A dropped row changes when the
columns that it meets come to their bounds, but not where they are. -/

namespace PolyProjection

set_option linter.unusedSectionVars false

variable {K : Type} [Field K] [LinearOrder K] [IsStrictOrderedRing K]

namespace LineSearch

open Engine

variable {s s' : LineSearch K} {e g : Engine K} {rows cols : IndexRange} {id j k : ℕ} {key delta : K}

/-- A dropped row leaves every column where it is at the step. -/
theorem RowDropped.place_eq (hd : RowDropped s s' k delta) (j : ℕ) :
    coord s'.engine.work.c j + s.step * coord s'.engine.work.pa j =
      coord s.engine.work.c j + s.step * coord s.engine.work.pa j := by
  rw [hd.c, hd.pa]
  ring

/-- A column that the dropped row does not meet keeps its value and its direction. -/
theorem RowDropped.of_notMem (hd : RowDropped s s' k delta) (hwell : s.engine.problem.WellPosed)
    (hnot : j ∉ (s.engine.problem.aT.columnEntries k).map Prod.fst) :
    coord s'.engine.work.c j = coord s.engine.work.c j ∧ coord s'.engine.work.pa j = coord s.engine.work.pa j := by
  have hzero : s.engine.problem.a.coeff k j = 0 := by
    rw [← hwell.transpose.coeff_eq hwell.formatted]
    exact SparseMatrix.coeff_of_not_mem hnot
  rw [hd.c, hd.pa, hzero]
  simp

/-- The break values after a row is dropped, from the values and the directions that the columns have then. -/
theorem RowDropped.keyAt_column (hd : RowDropped s s' k delta) (j : ℕ) : s'.engine.heap.keyAt j =
    if j ∈ (s.engine.problem.aT.columnEntries k).map Prod.fst ∧ s.engine.set.colAt j ≠ .free then
      rekey? s.step (coord s'.engine.work.c j + s.step * coord s'.engine.work.pa j) (coord s'.engine.work.pa j)
        (s.engine.set.colAt j)
    else s.engine.heap.keyAt j := by
  rw [hd.place_eq, hd.keys, hd.pa]

/-- Between two events a bound column lies beyond its bound. One that moves inwards comes to it at its break value, and
one without a break value not before the full step. -/
structure Guarded (cols : IndexRange) (s : LineSearch K) : Prop where
  beyond : ∀ j < s.engine.problem.ncols,
    (s.engine.set.colAt j).Beyond (coord s.engine.work.c j + s.step * s.engine.columnDirectionAt cols j)
  key : ∀ j < s.engine.problem.ncols, ∀ v, s.engine.heap.keyAt j = some v → 0 ≤ v ∧
    movesInwards (s.engine.set.colAt j) (coord s.engine.work.pa j) = true ∧
      coord s.engine.work.c j + v * coord s.engine.work.pa j = 0
  far : ∀ j < s.engine.problem.ncols, cols.start ≤ j ∧ j < cols.stop →
    movesInwards (s.engine.set.colAt j) (coord s.engine.work.pa j) = true → s.engine.heap.keyAt j = none →
      (s.engine.set.colAt j).Beyond (coord s.engine.work.c j + 1 * coord s.engine.work.pa j)

/-- Up to the next break value no bound column comes inside. -/
theorem Guarded.beyond_at (hg : Guarded cols s) {step : K} (hfrom : s.step ≤ step) (hle : step ≤ 1)
    (hahead : ∀ c v, s.engine.heap.keyAt c = some v → step ≤ max 0 v) (hj : j < s.engine.problem.ncols) :
    (s.engine.set.colAt j).Beyond (coord s.engine.work.c j + step * s.engine.columnDirectionAt cols j) := by
  by_cases hmoves : movesInwards (s.engine.set.colAt j) (s.engine.columnDirectionAt cols j) = true
  · by_cases hin : cols.start ≤ j ∧ j < cols.stop
    · rw [columnDirectionAt, if_pos hin] at hmoves ⊢
      cases hkey : s.engine.heap.keyAt j with
      | none => exact beyond_earlier hmoves hle (hg.far j hj hin hmoves hkey)
      | some v =>
          obtain ⟨hv, -, hzero⟩ := hg.key j hj v hkey
          have hstep := hahead j v hkey
          rw [max_eq_right hv] at hstep
          exact beyond_until hmoves hzero hstep
    · rw [columnDirectionAt, if_neg hin] at hmoves
      exact absurd rfl (ne_zero_of_movesInwards hmoves)
  · exact beyond_later (eq_false_of_ne_true hmoves) hfrom (hg.beyond j hj)

/-- A column is freed exactly on its bound. -/
theorem Guarded.on_bound (hg : Guarded cols s) (hj : j < s.engine.problem.ncols)
    (hkey : s.engine.heap.keyAt j = some key) : coord s.engine.work.c j + max 0 key * coord s.engine.work.pa j = 0 := by
  obtain ⟨hv, -, hzero⟩ := hg.key j hj key hkey
  rw [max_eq_right hv]
  exact hzero

section Event

variable {heap : BreakHeap K} {s₁ : LineSearch K} (hg : Guarded cols s)
  (hnext : ∀ j < s.engine.problem.ncols, (s.engine.set.colAt j).Beyond
    (coord s.engine.work.c j + max 0 key * s.engine.columnDirectionAt cols j))
  (hkeys : ∀ c, heap.keyAt c = if c = id then none else s.engine.heap.keyAt c)
  (hr : (s.goTo heap (max 0 key)).engine.Regular)

include hg hnext hkeys hr

/-- The freed column needs no guard any more, and the others are as they were. -/
theorem Guarded.of_columnFreed (hf : ColumnFreed (s.goTo heap (max 0 key)) s₁ id) : Guarded cols s₁ := by
  have hproblem : s₁.engine.problem = s.engine.problem := hf.problem
  have hc : s₁.engine.work.c = s.engine.work.c := hf.c
  have hpa : s₁.engine.work.pa = s.engine.work.pa := hf.pa
  have hheap : s₁.engine.heap = heap := hf.heap
  have hstep : s₁.step = max 0 key := hf.step
  have hcol : ∀ j, s₁.engine.set.colAt j = if j = id then .free else s.engine.set.colAt j := hf.colAt hr
  refine ⟨fun j hj => ?_, fun j hj v hv => ?_, fun j hj hin hmoves hnone => ?_⟩
  · rw [hproblem] at hj
    rw [hcol, hc, hstep, columnDirectionAt, hpa]
    split_ifs with hid
    · trivial
    · trivial
    all_goals
      have hside := hnext j hj
      rw [columnDirectionAt] at hside
    · rwa [if_pos ‹_›] at hside
    · rwa [if_neg ‹_›] at hside
  · rw [hproblem] at hj
    rw [hheap, hkeys] at hv
    split_ifs at hv with hid
    rw [hcol, if_neg hid, hc, hpa]
    exact hg.key j hj v hv
  · rw [hproblem] at hj
    rw [hcol, hpa] at hmoves
    split_ifs at hmoves with hid
    · cases hmoves
    · rw [hheap, hkeys, if_neg hid] at hnone
      rw [hcol, if_neg hid, hc, hpa]
      exact hg.far j hj hin hmoves hnone

/-- A dropped row leaves the columns that it meets where they are, and they get new break values. -/
theorem Guarded.of_rowDropped (hid : id = s.engine.problem.ncols + k)
    (hd : RowDropped (s.goTo heap (max 0 key)) s₁ k delta)
    (hinner : ∀ j ∈ (s.engine.problem.aT.columnEntries k).map Prod.fst, cols.start ≤ j ∧ j < cols.stop)
    (hlt : max 0 key < 1) : Guarded cols s₁ := by
  have hproblem : s₁.engine.problem = s.engine.problem := hd.problem
  have hstep : s₁.step = max 0 key := hd.step
  have hcol : ∀ j, s₁.engine.set.colAt j = s.engine.set.colAt j := hd.colAt
  have hsame : ∀ j, j ∉ (s.engine.problem.aT.columnEntries k).map Prod.fst →
      coord s₁.engine.work.c j = coord s.engine.work.c j ∧ coord s₁.engine.work.pa j = coord s.engine.work.pa j :=
    fun j => hd.of_notMem hr.problem
  have hside : ∀ j < s.engine.problem.ncols, cols.start ≤ j ∧ j < cols.stop → (s.engine.set.colAt j).Beyond
      (coord s₁.engine.work.c j + max 0 key * coord s₁.engine.work.pa j) := by
    intro j hj hin
    have hside := hnext j hj
    rw [columnDirectionAt, if_pos hin] at hside
    exact (hd.place_eq j).symm ▸ hside
  have hkey : ∀ j < s.engine.problem.ncols, s₁.engine.heap.keyAt j =
      if j ∈ (s.engine.problem.aT.columnEntries k).map Prod.fst ∧ s.engine.set.colAt j ≠ .free then
        rekey? (max 0 key) (coord s₁.engine.work.c j + max 0 key * coord s₁.engine.work.pa j)
          (coord s₁.engine.work.pa j) (s.engine.set.colAt j)
      else s.engine.heap.keyAt j := by
    intro j hj
    have hne : j ≠ id := by omega
    have hleft : heap.keyAt j = s.engine.heap.keyAt j := by rw [hkeys, if_neg hne]
    exact hleft ▸ hd.keyAt_column j
  refine ⟨fun j hj => ?_, fun j hj v hv => ?_, fun j hj hin hmoves hnone => ?_⟩
  all_goals rw [hproblem] at hj
  · rw [hcol, hstep, columnDirectionAt]
    split_ifs with hin
    · exact hside j hj hin
    · have hout := hnext j hj
      rw [columnDirectionAt, if_neg hin] at hout
      rw [(hsame j fun hmem => hin (hinner j hmem)).1]
      exact hout
  · rw [hcol]
    rw [hkey j hj] at hv
    split_ifs at hv with hmem
    · exact of_rekey? (le_max_left _ _) (hside j hj (hinner j hmem.1)) hv
    · have hold := hg.key j hj v hv
      -- the column is held, so the row does not meet it
      have hnot : j ∉ (s.engine.problem.aT.columnEntries k).map Prod.fst :=
        fun hin => hmem ⟨hin, held_of_movesInwards hold.2.1⟩
      rw [(hsame j hnot).1, (hsame j hnot).2]
      exact hold
  · rw [hcol] at hmoves ⊢
    rw [hkey j hj] at hnone
    split_ifs at hnone with hmem
    · exact of_rekey?_none hlt hmoves hnone
    · have hnot : j ∉ (s.engine.problem.aT.columnEntries k).map Prod.fst :=
        fun hin => hmem ⟨hin, held_of_movesInwards hmoves⟩
      rw [(hsame j hnot).2] at hmoves
      rw [(hsame j hnot).1, (hsame j hnot).2]
      exact hg.far j hj hin hmoves hnone

end Event

/-- At the next break value no bound column has come inside. -/
theorem Guarded.beyond_next (hg : Guarded cols s) (hs : Searching e rows s) (he : Event s s' id key)
    (hj : j < s.engine.problem.ncols) : (s.engine.set.colAt j).Beyond
      (coord s.engine.work.c j + max 0 key * s.engine.columnDirectionAt cols j) :=
  hg.beyond_at (hs.ahead id key he.first.1) he.lt_one.le
    (fun c v hc => max_le_max le_rfl (he.first.2 c v hc)) hj

theorem Guarded.event (hg : Guarded cols s) (hs : Searching e rows s) (hpursues : Pursues rows cols s)
    (hinner : ∀ k, rows.start ≤ k ∧ k < rows.stop → ∀ j ∈ (s.engine.problem.aT.columnEntries k).map Prod.fst,
      cols.start ≤ j ∧ j < cols.stop) (he : Event s s' id key) : Guarded cols s' := by
  have hnext := fun j => hg.beyond_next hs he (j := j)
  have hlt := he.lt_one
  have hfirst := he.first.1
  obtain ⟨heap, s₁, hvalid, hkeys, hevent, rfl⟩ := he.freed_or_dropped
  have hr := hs.regular.of_heap hvalid
  have hg₁ : Guarded cols s₁ := by
    rcases hevent with ⟨-, hf⟩ | ⟨k, delta, rfl, hd⟩
    · exact hg.of_columnFreed hnext hkeys hr hf
    · exact hg.of_rowDropped hnext hkeys hr rfl hd (hinner k (hpursues.row_key k key hfirst).1) hlt
  exact ⟨hg₁.beyond, hg₁.key, hg₁.far⟩

/-- What holds between two events of a search over a job that begins in `e` with all on their sides. -/
structure Orderly (e : Engine K) (rows cols : IndexRange) (s : LineSearch K) : Prop where
  searching : Searching e rows s
  pursues : Pursues rows cols s
  steady : Steady rows cols s
  guarded : Guarded cols s

variable {job : Job}

theorem Orderly.event (hp : e.problem.Accepted) (hjob : job.Covers e.problem.tree) (h : Orderly e job.rows job.cols s)
    (he : Event s s' id key) : Orderly e job.rows job.cols s' := by
  have hinner : ∀ k, job.rows.start ≤ k ∧ k < job.rows.stop →
      ∀ j ∈ (s.engine.problem.aT.columnEntries k).map Prod.fst, job.cols.start ≤ j ∧ j < job.cols.stop := by
    intro k hk j hj
    rw [h.searching.problem] at hj
    exact hp.mem_cols_of_transpose hjob hj hk
  exact ⟨h.searching.event he, he.pursues h.searching.regular h.pursues hinner,
    h.steady.event hp hjob h.searching he, h.guarded.event h.searching h.pursues hinner he⟩

theorem Orderly.walks (hp : e.problem.Accepted) (hjob : job.Covers e.problem.tree) (h : Orderly e job.rows job.cols s)
    (hw : Walks s s') : Orderly e job.rows job.cols s' := by
  induction hw with
  | refl => exact h
  | tail _ hstep ih =>
      obtain ⟨id, key, he⟩ := hstep
      exact ih.event hp hjob he

theorem Event.step_eq (he : Event s s' id key) : s'.step = max 0 key := by
  obtain ⟨heap, s₁, -, -, hevent, rfl⟩ := he.commit
  rcases hevent with ⟨-, hf⟩ | ⟨-, delta, hd⟩
  · exact hf.step
  · exact hd.step

/-- The last step of a walk goes on from its last event, not beyond a break value that is left. -/
theorem Searching.ends_ahead (hs : Searching e rows s) {flag : LineFlag} (he : Ends s flag s') :
    s.step ≤ min 1 s'.step := by
  refine le_min hs.step_le_one ?_
  cases he with
  | nondifferentiable _ => exact le_rfl
  | degenerate _ _ => exact le_rfl
  | interior hslope hcurvature _ => exact le_add_of_nonneg_right (div_pos hslope hcurvature).le
  | budget _ _ _ _ _ => exact hs.step_le_one

/-- A search finishes from the state after its last event. -/
theorem Finishes.exists_last (hp : e.problem.Accepted) (hjob : job.Covers e.problem.tree)
    (h : Orderly e job.rows job.cols s) {flag : LineFlag} (hf : Finishes s flag s') :
    ∃ s₁, Walks s s₁ ∧ Orderly e job.rows job.cols s₁ ∧ s'.engine = s₁.engine ∧ 0 ≤ s'.step ∧
      s₁.step ≤ min 1 s'.step ∧ ∀ c v, s₁.engine.heap.keyAt c = some v → min 1 s'.step ≤ max 0 v := by
  cases hf with
  | full hempty =>
      refine ⟨s, .refl, h, rfl, zero_le_one, ?_, fun c v hc => ?_⟩
      · exact le_min h.searching.step_le_one h.searching.step_le_one
      · rw [hempty] at hc
        cases hc
  | walk hwalks hends =>
      have hlast := h.walks hp hjob hwalks
      obtain ⟨hengine, -, -, hnonneg, hahead⟩ := hlast.searching.ends hends
      exact ⟨_, hwalks, hlast, hengine, hnonneg, hlast.searching.ends_ahead hends, hahead⟩

/-- A row that a walk drops has an event of its own. -/
theorem Walks.exists_drop (hw : Walks s s') (hr : s.engine.Regular) (hact : (s.engine.set.rowAt k).isActive = true)
    (hdropped : s'.engine.set.rowAt k = .dropped) :
    ∃ s₁ s₂ key, Walks s s₁ ∧ Event s₁ s₂ (s.engine.problem.ncols + k) key := by
  induction hw with
  | refl =>
      rw [hdropped] at hact
      cases hact
  | @tail s₁ s₂ hwalks hstep ih =>
      by_cases hbefore : s₁.engine.set.rowAt k = .dropped
      · exact ih hbefore
      obtain ⟨id, key, he⟩ := hstep
      obtain ⟨heap, s₃, hvalid, -, hevent, rfl⟩ := he.commit
      have hr₁ := (Walks.regular hwalks hr).of_heap hvalid
      rcases hevent with ⟨-, hf⟩ | ⟨hid, delta, hd⟩
      · have hrow : s₃.engine.set.rowAt k = s₁.engine.set.rowAt k := hf.rowAt k
        exact absurd (hrow.symm.trans hdropped) hbefore
      · have hrow : s₃.engine.set.rowAt k = if k = id - s₁.engine.problem.ncols then .dropped else s₁.engine.set.rowAt k :=
          hd.rowAt hr₁ k
        rw [show s₃.engine.set.rowAt k = .dropped from hdropped] at hrow
        split_ifs at hrow with hk
        · have hproblem : s₁.engine.problem = s.engine.problem := (Walks.frame hwalks).problem
          obtain rfl : id = s.engine.problem.ncols + k := by
            rw [hk, ← hproblem, Nat.add_sub_of_le hid]
          exact ⟨s₁, _, key, hwalks, he⟩
        · exact absurd hrow.symm hbefore

/-- A column that a walk frees has an event of its own. -/
theorem Walks.exists_release (hw : Walks s s') (hr : s.engine.Regular) (hheld : s.engine.set.colAt j ≠ .free)
    (hfree : s'.engine.set.colAt j = .free) :
    ∃ s₁ s₂ key, Walks s s₁ ∧ Event s₁ s₂ j key ∧ j < s.engine.problem.ncols := by
  induction hw with
  | refl => exact absurd hfree hheld
  | @tail s₁ s₂ hwalks hstep ih =>
      by_cases hbefore : s₁.engine.set.colAt j = .free
      · exact ih hbefore
      obtain ⟨id, key, he⟩ := hstep
      obtain ⟨heap, s₃, hvalid, -, hevent, rfl⟩ := he.commit
      have hr₁ := (Walks.regular hwalks hr).of_heap hvalid
      rcases hevent with ⟨hid, hf⟩ | ⟨-, delta, hd⟩
      · have hcol : s₃.engine.set.colAt j = if j = id then .free else s₁.engine.set.colAt j := hf.colAt hr₁ j
        rw [show s₃.engine.set.colAt j = .free from hfree] at hcol
        split_ifs at hcol with hj
        · have hproblem : s₁.engine.problem = s.engine.problem := (Walks.frame hwalks).problem
          refine ⟨s₁, _, key, hwalks, hj ▸ he, ?_⟩
          rw [hj, ← hproblem]
          exact hid
        · exact absurd hcol.symm hbefore
      · have hcol : s₃.engine.set.colAt j = s₁.engine.set.colAt j := hd.colAt j
        exact absurd (hcol.symm.trans hfree) hbefore

/-- The last step of a search leaves the bound columns beyond their bounds. -/
theorem Guarded.outside (hg : Guarded cols s) {step : K} (hfrom : s.step ≤ step) (hle : step ≤ 1)
    (hahead : ∀ c v, s.engine.heap.keyAt c = some v → step ≤ max 0 v)
    (hadvanced : s.engine.HasAdvanced rows cols step g) : g.Outside := by
  obtain ⟨dlambda, c, rfl, -, -, hc⟩ := hadvanced
  intro j hj
  have hside := hg.beyond_at hfrom hle hahead hj
  rw [columnDirectionAt, mul_ite, mul_zero] at hside
  show (s.engine.set.colAt j).Beyond (coord c j)
  rw [hc]
  exact hside

end LineSearch

namespace Engine

variable {e e' e₁ g : Engine K} {p : Problem K} {settings : Settings K} {rows cols : IndexRange} {job : Job}
  {s : LineSearch K} {out : LineOutcome K} {j k : ℕ} {a b : K}

theorem HasCandidates.guarded (hc : e.HasCandidates rows cols e') (ho : e.Outside) :
    LineSearch.Guarded cols ⟨e', 0, a, b, false, none⟩ := by
  obtain ⟨heap, rfl, -, hcols, -⟩ := hc
  refine ⟨fun j hj => ?_, fun j hj v hv => ?_, fun j hj hin hmoves hnone => ?_⟩
  · rw [zero_mul, add_zero]
    exact ho j hj
  · have hv : heap.keyAt j = some v := hv
    rw [hcols j hj, columnBreak?] at hv
    split_ifs at hv with hin hbreak
    rw [Option.some.injEq] at hv
    have hdiv := div_nonpos_of_beyond hbreak.1 (ho j hj)
    rw [← hv, neg_div]
    refine ⟨neg_nonneg.2 hdiv, hbreak.1, ?_⟩
    show coord e.work.c j + _ = 0
    rw [neg_mul, div_mul_cancel₀ _ (ne_zero_of_movesInwards hbreak.1), add_neg_cancel]
  · have hnone : heap.keyAt j = none := hnone
    have hmoves : movesInwards (e.set.colAt j) (coord e.work.pa j) = true := hmoves
    rw [hcols j hj, if_pos hin, columnBreak?] at hnone
    split_ifs at hnone with hbreak
    have hlate : 1 ≤ -coord e.work.c j / coord e.work.pa j := not_lt.1 fun hnear => hbreak ⟨hmoves, hnear⟩
    refine beyond_until hmoves ?_ hlate
    show coord e.work.c j + _ = 0
    rw [div_mul_cancel₀ _ (ne_zero_of_movesInwards hmoves), add_neg_cancel]

/-- The invariants of the search hold at its start. -/
theorem HasCandidates.orderly (hp : e.problem.Accepted) (hjob : job.Covers e.problem.tree) (hr : e.Regular)
    (hf : e.DualFeasible) (hb : e.Balanced) (ho : e.Outside) (hd : e.HasDirections job.rows job.cols e₁)
    (hc : e₁.HasCandidates job.rows job.cols e') :
    LineSearch.Orderly e₁ job.rows job.cols ⟨e', 0, a, b, false, none⟩ := by
  have hr₁ := hd.regular hr
  have hb₁ := hb.of_hasDirections hd
  have ha₁ := hd.aligned hp hjob
  obtain ⟨pa, rfl, -⟩ := hd
  exact ⟨hc.searching hr₁ (hf.of_eq (fun _ => rfl) rfl rfl), hc.pursues,
    ⟨hb₁.of_hasCandidates hc, ha₁.of_hasCandidates hc, hc.heldKeys⟩, hc.guarded ho⟩

/-- The states of a walk are orderly. -/
theorem Passes.orderly (hp : e.problem.Accepted) (hjob : job.Covers e.problem.tree) (hr : e.Regular)
    (hf : e.DualFeasible) (hb : e.Balanced) (ho : e.Outside) (hs : e.Passes job.rows job.cols s) :
    ∃ e₁, e.HasDirections job.rows job.cols e₁ ∧ LineSearch.Orderly e₁ job.rows job.cols s := by
  obtain ⟨s₀, hstarts, hwalks⟩ := hs
  obtain ⟨e₁, e₂, hd, -, hc, rfl⟩ := hstarts.spec hr (hp.job_stop hjob).1
  have hproblem : e₁.problem = e.problem := by
    obtain ⟨pa, rfl, -⟩ := hd
    rfl
  exact ⟨e₁, hd, (HasCandidates.orderly hp hjob hr hf hb ho hd hc).walks (hproblem ▸ hp) (hproblem ▸ hjob) hwalks⟩

section Run

variable (hp : e.problem.Accepted) (hr : e.Regular) (hf : e.DualFeasible) (hb : e.Balanced) (ho : e.Outside)

include hp hr hf hb ho

theorem Outside.of_searched (hjob : job.Covers e.problem.tree) (h : e.Searched job.rows job.cols out e') :
    e'.Outside ∧ 0 ≤ out.step ∧ out.step ≤ 1 := by
  cases h with
  | flat hd _ =>
      obtain ⟨pa, rfl, -⟩ := hd
      exact ⟨ho.of_eq rfl (fun _ => rfl) rfl, le_rfl, zero_le_one⟩
  | moved hd hslope hc hfinishes hadvanced =>
      rename_i e₁ e₂ s flag
      have hproblem : e₁.problem = e.problem := by
        obtain ⟨pa, rfl, -⟩ := hd
        rfl
      obtain ⟨s₁, -, hlast, hengine, hnonneg, hfrom, hahead⟩ := hfinishes.exists_last (hproblem ▸ hp) (hproblem ▸ hjob)
        (HasCandidates.orderly hp hjob hr hf hb ho hd hc)
      rw [hengine] at hadvanced
      exact ⟨hlast.guarded.outside hfrom (min_le_left _ _) hahead hadvanced, le_min zero_le_one hnonneg, min_le_left _ _⟩

theorem Outside.of_runStep (h : RunStep e e') : e'.Outside := by
  cases h with
  | quiet h => exact h.sameState.outside ho
  | commit h => exact (sameState_of_commit h).outside ho
  | schedule s => exact ho.of_eq rfl (fun _ => rfl) rfl
  | solve h =>
      obtain ⟨fwd, u, t, stats, rfl⟩ := of_solveJob h
      exact ho.of_eq rfl (fun _ => rfl) rfl
  | search hjob _ h => exact (Outside.of_searched hp hr hf hb ho hjob h).1

theorem Outside.of_runs (h : Runs e e') : e'.Outside := by
  induction h with
  | refl => exact ho
  | tail hruns hstep ih =>
      obtain ⟨hr', hproblem, -⟩ := Runs.regular hruns hr
      exact ih.of_runStep (hproblem ▸ hp) hr' (Runs.dualFeasible hruns hr hf) (hb.of_runs hp hr hf hruns) hstep

end Run

end Engine

end PolyProjection
