import Mathlib
import PolyProjection.Proofs.Engine.Events

/-! The start and the end of a line search. The direction of the columns is the product of the matrix with that
of the active rows, slope and curvature are sums over the rows and columns of the job, and the candidates are
the columns and rows with a break value before the full step. -/

namespace PolyProjection.Engine

set_option linter.unusedSectionVars false

variable {K : Type} [Field K] [LinearOrder K] [IsStrictOrderedRing K]

/-- The direction of a row, zero outside the active rows of the range. -/
def directionAt (e : Engine K) (rows : IndexRange) (i : Nat) : K :=
  if rows.start ≤ i ∧ i < rows.stop ∧ (e.set.rowAt i).isActive = true then coord e.work.t i else 0

/-- The break value of a column before the full step. -/
def columnBreak? (e : Engine K) (j : Nat) : Option K :=
  if movesInwards (e.set.colAt j) (coord e.work.pa j) ∧ -coord e.work.c j / coord e.work.pa j < 1 then
    some (-coord e.work.c j / coord e.work.pa j)
  else none

/-- The step at which the multiplier of a row becomes zero. -/
def zeroStep (e : Engine K) (i : Nat) : K :=
  -(coord e.lambda i + coord e.dlambda i) / coord e.work.t i

/-- The break value of a row before the full step. -/
def rowBreak? (e : Engine K) (i : Nat) : Option K :=
  if movesToZero (e.set.rowAt i) (coord e.work.t i) ∧ e.zeroStep i < 1 then some (max 0 (e.zeroStep i)) else none

/-- The slope along the direction over the rows and columns of a job. -/
def slopeAt (e : Engine K) (rows cols : IndexRange) : K :=
  ((e.set.activeBetween rows.start rows.stop).map fun i =>
    (coord e.work.rhs i - e.sigma * coord e.dlambda i) * coord e.work.t i).sum -
  ((span cols.start cols.stop).map fun j => if e.set.colAt j = .free then
    (coord e.work.c j - coord e.work.cold j) * coord e.work.pa j else 0).sum

/-- The curvature along the direction over the rows and columns of a job. -/
def curvatureAt (e : Engine K) (rows cols : IndexRange) : K :=
  ((e.set.activeBetween rows.start rows.stop).map fun i => e.sigma * coord e.work.t i * coord e.work.t i).sum +
  ((span cols.start cols.stop).map fun j => if e.set.colAt j = .free then
    coord e.work.pa j * coord e.work.pa j else 0).sum

/-- The engine with the directions of the columns of a job. -/
def HasDirections (e : Engine K) (rows cols : IndexRange) (e' : Engine K) : Prop :=
  ∃ pa, e' = { e with work := { e.work with pa := pa } } ∧ ∀ j, coord pa j =
    if cols.start ≤ j ∧ j < cols.stop then
      ∑ i ∈ Finset.range e.problem.nrows, e.problem.a.coeff i j * e.directionAt rows i
    else coord e.work.pa j

/-- The engine with the candidates of a job. -/
def HasCandidates (e : Engine K) (rows cols : IndexRange) (e' : Engine K) : Prop :=
  ∃ heap, e' = { e with heap := heap } ∧ heap.Valid (e.problem.ncols + e.problem.nrows) ∧
    (∀ j < e.problem.ncols, heap.keyAt j =
      if cols.start ≤ j ∧ j < cols.stop then e.columnBreak? j else none) ∧
    ∀ i, heap.keyAt (e.problem.ncols + i) =
      if rows.start ≤ i ∧ i < rows.stop ∧ (e.set.rowAt i).isActive = true then e.rowBreak? i else none

/-- The engine after a step along the direction of a job. -/
def HasAdvanced (e : Engine K) (rows cols : IndexRange) (step : K) (e' : Engine K) : Prop :=
  ∃ dlambda c, e' = { e with dlambda := dlambda, work := { e.work with c := c } } ∧
    dlambda.size = e.dlambda.size ∧
    (∀ i, coord dlambda i = coord e.dlambda i + step * e.directionAt rows i) ∧
    ∀ j, coord c j =
      coord e.work.c j + if cols.start ≤ j ∧ j < cols.stop then step * coord e.work.pa j else 0

variable {e e' : Engine K} {rows cols : IndexRange} {i j : Nat}

/-- The entries of a column over the active rows of a range, summed up one by one. -/
theorem Regular.of_directionEntry_foldlM (h : e.Regular) {l : List (Nat × K)} {s v : K}
    (hrow : ∀ x ∈ l, x.1 < e.problem.nrows)
    (hl : (l.filter fun x => decide (x.1 < rows.stop)).foldlM (fun s (i, a) => do
      if rows.start ≤ i && (← e.set.isRowActive i) then return s + a * (← fetch e.work.t i) else return s) s =
        .ok v) : v = s + (l.map fun x => x.2 * e.directionAt rows x.1).sum := by
  induction l generalizing s with
  | nil =>
      rw [List.filter_nil, List.foldlM_nil, pure_eq_ok_iff] at hl
      simp [hl]
  | cons x l ih =>
      have hx := hrow x List.mem_cons_self
      have hrest : ∀ y ∈ l, y.1 < e.problem.nrows := fun y hy => hrow y (List.mem_cons_of_mem x hy)
      rw [List.map_cons, List.sum_cons, ← add_assoc]
      rw [List.filter_cons] at hl
      by_cases hstop : x.1 < rows.stop
      · rw [if_pos (decide_eq_true hstop), List.foldlM_cons, bind_eq_ok_iff] at hl
        obtain ⟨s₁, hstep, hl⟩ := hl
        rw [ih hrest hl]
        congr 1
        simp only [h.set.isRowActive_eq hx, ok_bind, Bool.and_eq_true, decide_eq_true_eq] at hstep
        split_ifs at hstep with hin
        · simp only [bind_eq_ok_iff, pure_eq_ok_iff, fetch_eq_ok_coord_iff] at hstep
          obtain ⟨_, ⟨-, rfl⟩, rfl⟩ := hstep
          rw [directionAt, if_pos ⟨hin.1, hstop, hin.2⟩]
        · rw [pure_eq_ok_iff] at hstep
          rw [directionAt, if_neg fun hall => hin ⟨hall.1, hall.2.2⟩, hstep]
          ring
      · rw [if_neg (by simpa using hstop)] at hl
        rw [ih hrest hl, directionAt, if_neg fun hall => hstop hall.2.1]
        ring

theorem Regular.of_directionEntry (h : e.Regular) {v : K} (hok : e.directionEntry rows j = .ok v) :
    v = ∑ i ∈ Finset.range e.problem.nrows, e.problem.a.coeff i j * e.directionAt rows i := by
  unfold directionEntry at hok
  rw [bind_eq_ok_iff] at hok
  obtain ⟨c, hc, hok⟩ := hok
  rw [← SparseMatrix.columnEntries_of_ok hc] at hok
  rw [takeWhile_lt_eq_filter (h.problem.formatted.ascending j)] at hok
  rw [h.of_directionEntry_foldlM (h.problem.formatted.row_lt j) hok, zero_add, h.problem.formatted.sum_column j]
  rfl

theorem Regular.of_setDirections (h : e.Regular) (hok : e.setDirections rows cols = .ok e') :
    e.HasDirections rows cols e' := by
  unfold setDirections at hok
  simp only [bind_eq_ok_iff, pure_eq_ok_iff] at hok
  obtain ⟨pa, hfold, rfl⟩ := hok
  refine ⟨pa, rfl, fun j => ?_⟩
  obtain ⟨-, hcoord⟩ := foldlM_pointwise
    (fun j _ => ∑ i ∈ Finset.range e.problem.nrows, e.problem.a.coeff i j * e.directionAt rows i) hfold
    (nodup_span _ _) (by
      intro j _ u u' _ hstep
      rw [bind_eq_ok_iff] at hstep
      obtain ⟨v, hv, hstep⟩ := hstep
      rw [store_eq_ok_iff] at hstep
      obtain ⟨hlt, rfl⟩ := hstep
      rw [h.of_directionEntry hv]
      exact coord_set_step hlt)
  rw [hcoord j]
  simp only [mem_span]

theorem of_startSlope_rows {l : List Nat} {a b fd sd : K} (hl : l.foldlM (fun ((fd : K), (sd : K)) i => do
      let t ← fetch e.work.t i
      let g := (← fetch e.work.rhs i) - e.sigma * (← fetch e.dlambda i)
      return (fd + g * t, sd + e.sigma * t * t)) (a, b) = .ok (fd, sd)) :
    fd = a + (l.map fun i => (coord e.work.rhs i - e.sigma * coord e.dlambda i) * coord e.work.t i).sum ∧
    sd = b + (l.map fun i => e.sigma * coord e.work.t i * coord e.work.t i).sum := by
  induction l generalizing a b with
  | nil =>
      rw [List.foldlM_nil, pure_eq_ok_iff, Prod.mk.injEq] at hl
      simp [hl]
  | cons i l ih =>
      rw [List.foldlM_cons, bind_eq_ok_iff] at hl
      obtain ⟨⟨a₁, b₁⟩, hstep, hl⟩ := hl
      simp only [bind_eq_ok_iff, pure_eq_ok_iff, fetch_eq_ok_coord_iff, Prod.mk.injEq] at hstep
      obtain ⟨_, ⟨-, rfl⟩, _, ⟨-, rfl⟩, _, ⟨-, rfl⟩, rfl, rfl⟩ := hstep
      obtain ⟨hfd, hsd⟩ := ih hl
      rw [hfd, hsd, List.map_cons, List.map_cons, List.sum_cons, List.sum_cons, add_assoc, add_assoc]
      exact ⟨rfl, rfl⟩

theorem of_startSlope_cols {l : List Nat} {a b fd sd : K} (hl : l.foldlM (fun ((fd : K), (sd : K)) j => do
      if !(← e.set.isFree j) then return (fd, sd)
      let p ← fetch e.work.pa j
      let moved := (← fetch e.work.c j) - (← fetch e.work.cold j)
      return (fd - moved * p, sd + p * p)) (a, b) = .ok (fd, sd)) :
    fd = a - (l.map fun j => if e.set.colAt j = .free then
      (coord e.work.c j - coord e.work.cold j) * coord e.work.pa j else 0).sum ∧
    sd = b + (l.map fun j => if e.set.colAt j = .free then
      coord e.work.pa j * coord e.work.pa j else 0).sum := by
  induction l generalizing a b with
  | nil =>
      rw [List.foldlM_nil, pure_eq_ok_iff, Prod.mk.injEq] at hl
      simp [hl]
  | cons j l ih =>
      rw [List.foldlM_cons, bind_eq_ok_iff] at hl
      obtain ⟨⟨a₁, b₁⟩, hstep, hl⟩ := hl
      obtain ⟨hfd, hsd⟩ := ih hl
      rw [hfd, hsd, List.map_cons, List.map_cons, List.sum_cons, List.sum_cons, ← sub_sub, ← add_assoc]
      rw [bind_eq_ok_iff] at hstep
      obtain ⟨free, hfree, hstep⟩ := hstep
      obtain ⟨rfl, -⟩ := ActiveSet.isFree_ok hfree
      by_cases hcol : e.set.colAt j = .free
      · simp only [hcol, beq_self_eq_true, Bool.not_true, Bool.false_eq_true, if_false, bind_eq_ok_iff,
          pure_eq_ok_iff, fetch_eq_ok_coord_iff, Prod.mk.injEq] at hstep
        obtain ⟨_, ⟨-, rfl⟩, _, ⟨-, rfl⟩, _, ⟨-, rfl⟩, rfl, rfl⟩ := hstep
        rw [if_pos hcol, if_pos hcol]
        exact ⟨rfl, rfl⟩
      · rw [if_pos (by simpa using hcol), pure_eq_ok_iff, Prod.mk.injEq] at hstep
        rw [if_neg hcol, if_neg hcol, hstep.1, hstep.2, sub_zero, add_zero]
        exact ⟨rfl, rfl⟩

theorem Regular.of_startSlope (h : e.Regular) (hstop : rows.stop ≤ e.problem.nrows) {slope curvature : K}
    (hok : e.startSlope rows cols = .ok (slope, curvature)) :
    slope = e.slopeAt rows cols ∧ curvature = e.curvatureAt rows cols := by
  unfold startSlope at hok
  rw [h.activeIn_ok hstop, ok_bind] at hok
  rw [bind_eq_ok_iff] at hok
  obtain ⟨⟨fd, sd⟩, hrows, hcols⟩ := hok
  obtain ⟨rfl, rfl⟩ := of_startSlope_rows hrows
  rw [zero_add, zero_add] at hcols
  exact of_startSlope_cols hcols

/-- Candidates are added one after the other, each under a number of its own. -/
theorem keyAt_of_foldlM {n : Nat} {f : BreakHeap K → Nat → Checked (BreakHeap K)} (number : Nat → Nat)
    (key : Nat → Option K) {l : List Nat} {heap heap' : BreakHeap K} (hok : l.foldlM f heap = .ok heap')
    (hv : heap.Valid n) (hl : l.Nodup) (hinj : Function.Injective number)
    (step : ∀ i ∈ l, ∀ g g' : BreakHeap K, g.Valid n → g.keyAt (number i) = none → f g i = .ok g' →
      g'.Valid n ∧ ∀ d, g'.keyAt d = if d = number i then key i else g.keyAt d)
    (hnone : ∀ i ∈ l, heap.keyAt (number i) = none) :
    heap'.Valid n ∧ (∀ i ∈ l, heap'.keyAt (number i) = key i) ∧
      ∀ d, (∀ i ∈ l, d ≠ number i) → heap'.keyAt d = heap.keyAt d := by
  refine foldlM_reaches (fun done g => g.Valid n ∧ (∀ i ∈ done, g.keyAt (number i) = key i) ∧
    ∀ d, (∀ i ∈ done, d ≠ number i) → g.keyAt d = heap.keyAt d) hok ⟨hv, by simp, by simp⟩ ?_
  rintro done i rest g g' hdone ⟨hg, hin, hout⟩ hstep
  have hi : i ∈ l := by
    rw [hdone]
    simp
  have hnew : i ∉ done := fun hmem => List.disjoint_of_nodup_append (hdone ▸ hl) hmem List.mem_cons_self
  have hold : g.keyAt (number i) = none := by
    rw [hout _ fun k hk heq => hnew (by rwa [hinj heq])]
    exact hnone i hi
  obtain ⟨hg', hkeys⟩ := step i hi g g' hg hold hstep
  refine ⟨hg', fun k hk => ?_, fun d hd => ?_⟩
  · rw [hkeys]
    rcases List.mem_append.1 hk with hk | hk
    · rw [if_neg fun heq => hnew (by rwa [← hinj heq])]
      exact hin k hk
    · rw [List.mem_singleton.1 hk, if_pos rfl]
  · rw [hkeys, if_neg (hd i (by simp))]
    exact hout d fun k hk => hd k (List.mem_append_left _ hk)

section Candidate

variable {n : Nat} {g g' : BreakHeap K}

/-- A candidate without a break value is left out. -/
theorem keyAt_of_none (hold : g.keyAt i = none) (d : Nat) : g.keyAt d = if d = i then none else g.keyAt d := by
  split_ifs with hd
  exacts [hd ▸ hold, rfl]

theorem lt_of_addColumnCandidate (hok : e.addColumnCandidate g j = .ok g') : j < e.set.colStatus.size := by
  unfold addColumnCandidate at hok
  simp only [bind_eq_ok_iff] at hok
  obtain ⟨_, -, _, -, _, hst, -⟩ := hok
  exact follow_lt hst

theorem of_addColumnCandidate (hg : g.Valid n) (hold : g.keyAt j = none) (hok : e.addColumnCandidate g j = .ok g') :
    g'.Valid n ∧ ∀ d, g'.keyAt d = if d = j then e.columnBreak? j else g.keyAt d := by
  unfold addColumnCandidate at hok
  simp only [bind_eq_ok_iff, fetch_eq_ok_coord_iff] at hok
  obtain ⟨_, ⟨-, rfl⟩, _, ⟨-, rfl⟩, st, hst, hok⟩ := hok
  obtain rfl := ActiveSet.fetch_colStatus_eq hst
  rw [columnBreak?]
  split_ifs at hok with hmoves
  · simp only [bind_eq_ok_iff, Scalar.quotient_eq_ok_iff] at hok
    obtain ⟨_, ⟨-, rfl⟩, hok⟩ := hok
    split_ifs at hok with hlt
    · rw [if_pos ⟨hmoves, hlt⟩]
      exact (hg.of_insert hok).2.2
    · rw [pure_eq_ok_iff] at hok
      rw [if_neg fun hall => hlt hall.2, ← hok]
      exact ⟨hg, keyAt_of_none hold⟩
  · rw [pure_eq_ok_iff] at hok
    rw [if_neg fun hall => hmoves hall.1, ← hok]
    exact ⟨hg, keyAt_of_none hold⟩

theorem of_addRowCandidate (hg : g.Valid n) (hold : g.keyAt (e.problem.ncols + i) = none)
    (hok : e.addRowCandidate g i = .ok g') :
    g'.Valid n ∧ ∀ d, g'.keyAt d = if d = e.problem.ncols + i then e.rowBreak? i else g.keyAt d := by
  unfold addRowCandidate at hok
  simp only [bind_eq_ok_iff, fetch_eq_ok_coord_iff] at hok
  obtain ⟨_, ⟨-, rfl⟩, st, hst, hok⟩ := hok
  obtain rfl := ActiveSet.fetch_rowStatus_eq hst
  rw [rowBreak?, zeroStep]
  split_ifs at hok with hmoves
  · simp only [bind_eq_ok_iff, fetch_eq_ok_coord_iff, Scalar.quotient_eq_ok_iff] at hok
    obtain ⟨_, ⟨-, rfl⟩, _, ⟨-, rfl⟩, _, ⟨-, rfl⟩, hok⟩ := hok
    rw [Scalar.max_exact] at hok
    split_ifs at hok with hlt
    · rw [if_pos ⟨hmoves, hlt⟩]
      exact (hg.of_insert hok).2.2
    · rw [pure_eq_ok_iff] at hok
      rw [if_neg fun hall => hlt hall.2, ← hok]
      exact ⟨hg, keyAt_of_none hold⟩
  · rw [pure_eq_ok_iff] at hok
    rw [if_neg fun hall => hmoves hall.1, ← hok]
    exact ⟨hg, keyAt_of_none hold⟩

end Candidate

theorem Regular.of_setCandidates (h : e.Regular) (hstop : rows.stop ≤ e.problem.nrows)
    (hok : e.setCandidates rows cols = .ok e') : e.HasCandidates rows cols e' := by
  unfold setCandidates at hok
  rw [bind_eq_ok_iff] at hok
  obtain ⟨heap₀, hclear, hok⟩ := hok
  rw [bind_eq_ok_iff] at hok
  obtain ⟨heap₁, hcols, hok⟩ := hok
  rw [h.activeIn_ok hstop, ok_bind] at hok
  simp only [bind_eq_ok_iff, pure_eq_ok_iff] at hok
  obtain ⟨heap₂, hrows, rfl⟩ := hok
  obtain ⟨hv₀, hnone⟩ := h.heap.of_clear hclear
  obtain ⟨hv₁, hin₁, hout₁⟩ := keyAt_of_foldlM id e.columnBreak? hcols hv₀ (nodup_span _ _) Function.injective_id
    (fun j _ g g' hg hold hstep => of_addColumnCandidate hg hold hstep) fun j _ => hnone j
  -- the numbers of rows lie beyond those of the columns
  have hnone₁ : ∀ i, heap₁.keyAt (e.problem.ncols + i) = none := fun i => by
    refine (hout₁ _ fun j hj heq => ?_).trans (hnone _)
    obtain ⟨_, _, hstep⟩ := step_of_foldlM hcols j hj
    have hlt := lt_of_addColumnCandidate hstep
    rw [h.set.size_colStatus] at hlt
    simp only [id] at heq
    omega
  obtain ⟨hv₂, hin₂, hout₂⟩ := keyAt_of_foldlM (fun i => e.problem.ncols + i) e.rowBreak? hrows hv₁
    ((ActiveSet.activeBetween_ascending _ _ _).imp Nat.ne_of_lt) (add_right_injective _)
    (fun i _ g g' hg hold hstep => of_addRowCandidate hg hold hstep) fun i _ => hnone₁ i
  refine ⟨heap₂, rfl, hv₂, fun j hj => ?_, fun i => ?_⟩
  · rw [hout₂ j fun i _ => by omega]
    by_cases hmem : cols.start ≤ j ∧ j < cols.stop
    · rw [if_pos hmem]
      exact hin₁ j (mem_span.2 hmem)
    · rw [if_neg hmem, hout₁ j fun k hk heq => hmem (mem_span.1 (heq ▸ hk))]
      exact hnone j
  · by_cases hmem : rows.start ≤ i ∧ i < rows.stop ∧ (e.set.rowAt i).isActive = true
    · rw [if_pos hmem]
      exact hin₂ i (ActiveSet.mem_activeBetween.2 ⟨hmem.2.2, hmem.1, hmem.2.1⟩)
    · rw [if_neg hmem, hout₂ _ fun k hk heq => hmem ?_]
      · exact hnone₁ i
      · obtain ⟨hact, hle, hlt⟩ := ActiveSet.mem_activeBetween.1 hk
        rw [Nat.add_left_cancel heq]
        exact ⟨hle, hlt, hact⟩

theorem Regular.of_advanceBy (h : e.Regular) (hstop : rows.stop ≤ e.problem.nrows) {step : K}
    (hok : e.advanceBy rows cols step = .ok e') : e.HasAdvanced rows cols step e' := by
  unfold advanceBy at hok
  simp only [bind_eq_ok_iff, pure_eq_ok_iff] at hok
  obtain ⟨dlambda, hrows, c, hcols, rfl⟩ := hok
  obtain ⟨hsize, hdlambda⟩ := foldlM_pointwise
    (fun i v => if (e.set.rowAt i).isActive = true then v + step * coord e.work.t i else v) hrows
    (nodup_span _ _) (by
      intro i hi u u' _ hstep
      rw [h.set.isRowActive_eq (by have := mem_span.1 hi; omega), ok_bind] at hstep
      split_ifs at hstep with hact
      · simp only [bind_eq_ok_iff, fetch_eq_ok_coord_iff, adjust_eq_ok_iff] at hstep
        obtain ⟨_, ⟨-, rfl⟩, hlt, rfl⟩ := hstep
        simp only [if_pos hact]
        exact coord_set_step hlt
      · rw [pure_eq_ok_iff] at hstep
        simp only [if_neg hact]
        exact hstep ▸ coord_keep_step u i)
  obtain ⟨-, hc⟩ := foldlM_pointwise (fun j v => v + step * coord e.work.pa j) hcols (nodup_span _ _) (by
    intro j _ u u' _ hstep
    simp only [bind_eq_ok_iff, fetch_eq_ok_coord_iff, adjust_eq_ok_iff] at hstep
    obtain ⟨_, ⟨-, rfl⟩, hlt, rfl⟩ := hstep
    exact coord_set_step hlt)
  refine ⟨dlambda, c, rfl, hsize, fun i => ?_, fun j => ?_⟩
  · rw [hdlambda i, directionAt]
    simp only [mem_span]
    split_ifs <;> simp_all
  · rw [hc j]
    simp only [mem_span]
    split_ifs <;> simp

end PolyProjection.Engine
