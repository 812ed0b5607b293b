import Mathlib
import PolyProjection.Proofs.Dissection
import PolyProjection.Proofs.Engine.History

/-! What the vectors of a run say. The values of the columns are those of the multipliers, what the columns have moved
is due to the increments of the active rows, and the right-hand side is what the base values and the columns that
began to move late leave of the bounds. Nothing computes the vectors anew within a run: each event patches them, at a
step that the other rows have not taken yet. -/

namespace PolyProjection

set_option linter.unusedSectionVars false

variable {K : Type} [Field K] [LinearOrder K] [IsStrictOrderedRing K]

namespace Engine

/-- The vectors of the workspace fit the multipliers and the active set. -/
structure Balanced (e : Engine K) : Prop where
  column : ∀ j < e.problem.ncols, coord e.work.reference j + coord e.work.c j =
    e.problem.columnValue j fun i => coord e.lambda i + coord e.dlambda i
  moved : ∀ j < e.problem.ncols, coord e.work.c j - coord e.work.cold j =
    ∑ i ∈ Finset.range e.problem.nrows, e.problem.a.coeff i j * coord e.dlambda i
  rhs : ∀ i, (e.set.rowAt i).isActive = true → coord e.work.rhs i =
    e.boundAt i - e.problem.rowValue i (coord e.work.reference) -
      ∑ j ∈ Finset.range e.problem.ncols,
        e.problem.a.coeff i j * if e.set.colAt j = .free then coord e.work.cold j else 0

/-- The direction of each column of a job is that of the active rows of the job, and no other column is moved by
these. -/
def Aligned (e : Engine K) (rows cols : IndexRange) : Prop :=
  ∀ j, (if cols.start ≤ j ∧ j < cols.stop then coord e.work.pa j else 0) =
    ∑ i ∈ Finset.range e.problem.nrows, e.problem.a.coeff i j * e.directionAt rows i

variable {e e' : Engine K} {rows cols : IndexRange} {i j k : Nat}

theorem boundAt_congr (hproblem : e'.problem = e.problem) (hrow : e'.set.rowAt i = e.set.rowAt i) :
    e'.boundAt i = e.boundAt i := by
  rw [boundAt, boundAt, hproblem, hrow]

/-- Only some of the vectors matter. -/
theorem Balanced.of_eq (hb : e.Balanced) (hproblem : e'.problem = e.problem) (hrow : ∀ i, e'.set.rowAt i = e.set.rowAt i)
    (hcol : ∀ j, e'.set.colAt j = e.set.colAt j) (hlambda : e'.lambda = e.lambda) (hdlambda : e'.dlambda = e.dlambda)
    (hreference : e'.work.reference = e.work.reference) (hc : e'.work.c = e.work.c) (hcold : e'.work.cold = e.work.cold)
    (hrhs : e'.work.rhs = e.work.rhs) : e'.Balanced where
  column := by
    rw [hproblem, hreference, hc, hlambda, hdlambda]
    exact hb.column
  moved := by
    rw [hproblem, hc, hcold, hdlambda]
    exact hb.moved
  rhs := fun i hi => by
    rw [hrow] at hi
    rw [boundAt_congr hproblem (hrow i), hproblem, hreference, hcold, hrhs]
    simp only [hcol]
    exact hb.rhs i hi

theorem SameState.balanced (h : SameState e e') (hb : e.Balanced) : e'.Balanced :=
  hb.of_eq h.problem h.rowAt h.colAt h.lambda h.dlambda (by rw [h.work]) (by rw [h.work]) (by rw [h.work])
    (by rw [h.work])

/-- With fresh vectors no free column has moved and no row has an increment. -/
theorem Rebased.balanced (h : e.Regular) (hr : Rebased e e') : e'.Balanced where
  column := fun j hj => by
    rw [hr.problem_eq] at hj ⊢
    rw [hr.c j hj, add_sub_cancel]
    simp only [hr.dlambda, add_zero]
  moved := fun j hj => by
    rw [hr.problem_eq] at hj
    rw [hr.cold j hj, sub_self]
    simp only [hr.dlambda, mul_zero, Finset.sum_const_zero]
  rhs := fun i hi => by
    rw [hr.set_eq] at hi
    rw [boundAt_congr hr.problem_eq (by rw [hr.set_eq]), hr.problem_eq, hr.rhs i (h.row_lt hi), if_pos hi, hr.set_eq,
      Finset.sum_eq_zero, sub_zero]
    intro j hj
    have hj := Finset.mem_range.1 hj
    split_ifs with hfree
    · have hnone : e.columnBoundAt j = none := by rw [columnBoundAt, hfree]
      rw [hr.cold j hj, hr.c j hj, hr.reference j hj, hnone, Option.getD_none, sub_self, mul_zero]
    · exact mul_zero _

/-- At the start of a search the directions of the columns of the job are set. -/
theorem HasDirections.aligned (hp : e.problem.Accepted) {job : Job} (hjob : job.Covers e.problem.tree)
    (hd : e.HasDirections job.rows job.cols e') : e'.Aligned job.rows job.cols := by
  obtain ⟨pa, rfl, hpa⟩ := hd
  intro j
  show (if job.cols.start ≤ j ∧ j < job.cols.stop then coord pa j else 0) =
    ∑ i ∈ Finset.range e.problem.nrows, e.problem.a.coeff i j * e.directionAt job.rows i
  split_ifs with hj
  · rw [hpa j, if_pos hj]
  · refine (Finset.sum_eq_zero fun i _ => ?_).symm
    by_cases hi : job.rows.start ≤ i ∧ i < job.rows.stop
    · rw [hp.coeff_eq_zero hjob hi hj, zero_mul]
    · rw [directionAt, if_neg fun hall => hi ⟨hall.1, hall.2.1⟩, mul_zero]

theorem Balanced.of_hasDirections (hb : e.Balanced) (hd : e.HasDirections rows cols e') : e'.Balanced := by
  obtain ⟨pa, rfl, -⟩ := hd
  exact hb.of_eq rfl (fun _ => rfl) (fun _ => rfl) rfl rfl rfl rfl rfl rfl

theorem Balanced.of_hasCandidates (hb : e.Balanced) (hc : e.HasCandidates rows cols e') : e'.Balanced := by
  obtain ⟨heap, rfl, -⟩ := hc
  exact hb.of_eq rfl (fun _ => rfl) (fun _ => rfl) rfl rfl rfl rfl rfl rfl

theorem Aligned.of_hasCandidates (ha : e.Aligned rows cols) (hc : e.HasCandidates rows cols e') :
    e'.Aligned rows cols := by
  obtain ⟨heap, rfl, -⟩ := hc
  exact ha

/-- A step along an aligned direction moves the columns as the multipliers. -/
theorem Balanced.of_hasAdvanced (hb : e.Balanced) (ha : e.Aligned rows cols) {step : K}
    (hadvanced : e.HasAdvanced rows cols step e') : e'.Balanced := by
  obtain ⟨dlambda, c, rfl, -, hdlambda, hc⟩ := hadvanced
  have hmove : ∀ j, coord c j = coord e.work.c j +
      ∑ i ∈ Finset.range e.problem.nrows, e.problem.a.coeff i j * (step * e.directionAt rows i) := by
    intro j
    have hsum : ∑ i ∈ Finset.range e.problem.nrows, e.problem.a.coeff i j * (step * e.directionAt rows i) =
        step * ∑ i ∈ Finset.range e.problem.nrows, e.problem.a.coeff i j * e.directionAt rows i := by
      rw [Finset.mul_sum]
      exact Finset.sum_congr rfl fun i _ => by ring
    rw [hc, hsum, ← ha j, mul_ite, mul_zero]
  refine ⟨fun j hj => ?_, fun j hj => ?_, hb.rhs⟩
  · have hcolumn := hb.column j hj
    simp only [Problem.columnValue] at hcolumn ⊢
    simp only [hmove, hdlambda, mul_add, Finset.sum_add_distrib] at hcolumn ⊢
    rw [← add_assoc, hcolumn]
    ring
  · have hmoved := hb.moved j hj
    simp only [hmove, hdlambda, mul_add, Finset.sum_add_distrib]
    rw [← hmoved]
    ring

end Engine

namespace LineSearch

variable {s s' : LineSearch K} {id j k : Nat} {key delta : K} {rows cols : IndexRange}

/-- A sum loses the summand of one index. -/
theorem sum_without {n : Nat} (hk : k < n) (a f : Nat → K) :
    ∑ i ∈ Finset.range n, a i * (if i = k then 0 else f i) = (∑ i ∈ Finset.range n, a i * f i) - a k * f k := by
  have hsplit : ∀ i, a i * (if i = k then 0 else f i) = a i * f i - if i = k then a i * f i else 0 := fun i => by
    split_ifs <;> ring
  simp only [hsplit, Finset.sum_sub_distrib, Finset.sum_ite_eq', Finset.mem_range, if_pos hk]

/-- What a column was away from its bound leaves the right-hand side when the column begins to move. -/
theorem ColumnFreed.balanced (hf : ColumnFreed s s' j) (h : s.engine.Regular)
    (hheld : s.engine.set.colAt j ≠ .free) (hb : s.engine.Balanced) : s'.engine.Balanced := by
  refine ⟨?_, ?_, fun i hi => ?_⟩
  · rw [hf.problem, hf.reference, hf.c, hf.lambda, hf.dlambda]
    exact hb.column
  · rw [hf.problem, hf.c, hf.cold, hf.dlambda]
    exact hb.moved
  · rw [hf.rowAt] at hi
    rw [Engine.boundAt_congr hf.problem (hf.rowAt i), hf.problem, hf.reference, hf.cold, hf.rhs, if_pos hi, hb.rhs i hi]
    have hsplit : ∀ l, s.engine.problem.a.coeff i l *
        (if s'.engine.set.colAt l = .free then coord s.engine.work.cold l else 0) =
        s.engine.problem.a.coeff i l * (if s.engine.set.colAt l = .free then coord s.engine.work.cold l else 0) +
          if l = j then s.engine.problem.a.coeff i l * coord s.engine.work.cold l else 0 := by
      intro l
      rw [hf.colAt h]
      by_cases hl : l = j
      · rw [if_pos hl, if_pos hl, if_pos rfl, hl, if_neg hheld, mul_zero, zero_add]
      · rw [if_neg hl, if_neg hl, add_zero]
    simp only [hsplit, Finset.sum_add_distrib, Finset.sum_ite_eq', Finset.mem_range, if_pos hf.lt]
    ring

/-- The columns keep what a dropped row has moved them by so far, and it becomes a part of what no active row accounts
for. -/
theorem RowDropped.balanced (hd : RowDropped s s' k delta) (h : s.engine.Regular)
    (hzero : coord s.engine.lambda k + coord s.engine.dlambda k + s.step * coord s.engine.work.t k = 0)
    (hb : s.engine.Balanced) : s'.engine.Balanced := by
  refine ⟨fun j hj => ?_, fun j hj => ?_, fun i hi => ?_⟩
  · rw [hd.problem] at hj ⊢
    have hcolumn := hb.column j hj
    have hvalue : ∀ i, coord s'.engine.lambda i + coord s'.engine.dlambda i =
        if i = k then 0 else coord s.engine.lambda i + coord s.engine.dlambda i := fun i => by
      rw [hd.lambda, hd.dlambda]
      split_ifs
      · exact add_zero 0
      · rfl
    rw [Problem.columnValue] at hcolumn ⊢
    simp only [hvalue]
    rw [sum_without hd.lt (fun i => s.engine.problem.a.coeff i j), hd.reference, hd.c, ← add_assoc, hcolumn]
    linear_combination (s.engine.problem.a.coeff k j) * hzero
  · rw [hd.problem] at hj ⊢
    simp only [hd.dlambda]
    rw [sum_without hd.lt (fun i => s.engine.problem.a.coeff i j), ← hb.moved j hj, hd.c, hd.cold, hd.delta_eq]
    ring
  · have hik : i ≠ k := by
      rintro rfl
      rw [hd.rowAt h, if_pos rfl] at hi
      cases hi
    have hrow : s'.engine.set.rowAt i = s.engine.set.rowAt i := by rw [hd.rowAt h, if_neg hik]
    rw [hd.rhs, if_neg hik, if_pos hi, sub_zero]
    rw [hrow] at hi
    rw [hb.rhs i hi, Engine.boundAt_congr hd.problem hrow, hd.problem, hd.reference, sub_sub _ _ (∑ j ∈ _, _),
      ← Finset.sum_add_distrib]
    congr 1
    refine Finset.sum_congr rfl fun j _ => ?_
    rw [hd.colAt, hd.cold]
    split_ifs <;> ring

theorem ColumnFreed.directionAt_eq (hf : ColumnFreed s s' j) :
    s'.engine.directionAt rows = s.engine.directionAt rows := by
  funext i
  rw [Engine.directionAt, Engine.directionAt, hf.rowAt, hf.t]

theorem ColumnFreed.aligned (hf : ColumnFreed s s' j) (ha : s.engine.Aligned rows cols) :
    s'.engine.Aligned rows cols := by
  intro l
  rw [hf.problem, hf.pa, hf.directionAt_eq]
  exact ha l

theorem RowDropped.directionAt_eq (hd : RowDropped s s' k delta) (h : s.engine.Regular) (i : Nat) :
    s'.engine.directionAt rows i = if i = k then 0 else s.engine.directionAt rows i := by
  rw [Engine.directionAt, Engine.directionAt, hd.rowAt h, hd.t]
  by_cases hik : i = k
  · rw [if_pos hik, if_pos hik, if_neg fun hall => by cases hall.2.2]
  · rw [if_neg hik, if_neg hik]

theorem RowDropped.directionAt_self (hd : RowDropped s s' k delta) (hk : rows.start ≤ k ∧ k < rows.stop) :
    s.engine.directionAt rows k = coord s.engine.work.t k := by
  rw [Engine.directionAt, if_pos ⟨hk.1, hk.2, hd.active⟩]

/-- The columns lose the direction of a dropped row of the job. -/
theorem RowDropped.aligned (hd : RowDropped s s' k delta) (h : s.engine.Regular)
    (hk : rows.start ≤ k ∧ k < rows.stop)
    (houter : ∀ l, ¬(cols.start ≤ l ∧ l < cols.stop) → s.engine.problem.a.coeff k l = 0)
    (ha : s.engine.Aligned rows cols) : s'.engine.Aligned rows cols := by
  intro l
  simp only [hd.directionAt_eq h]
  rw [hd.problem, sum_without hd.lt fun i => s.engine.problem.a.coeff i l, ← ha l, hd.directionAt_self hk]
  split_ifs with hl
  · rw [hd.pa]
  · rw [houter l hl]
    ring

/-- Columns among the candidates are held. -/
def HeldKeys (s : LineSearch K) : Prop :=
  ∀ j < s.engine.problem.ncols, ∀ v, s.engine.heap.keyAt j = some v → s.engine.set.colAt j ≠ .free

theorem Event.heldKeys (he : Event s s' id key) (h : s.engine.Regular) (hheld : s.HeldKeys) : s'.HeldKeys := by
  obtain ⟨heap, s₁, hvalid, hkeys, hevent, rfl⟩ := he.commit
  rcases hevent with ⟨-, hf⟩ | ⟨-, delta, hd⟩
  · have hproblem : s₁.engine.problem = s.engine.problem := hf.problem
    have hheap : s₁.engine.heap = heap := hf.heap
    intro j hj v hv
    obtain ⟨hne, hv⟩ := keyAt_of_left hkeys (hheap ▸ hv)
    rw [hf.colAt (h.of_heap hvalid), if_neg hne]
    exact hheld j (hproblem ▸ hj) v hv
  · have hproblem : s₁.engine.problem = s.engine.problem := hd.problem
    intro j hj v hv
    have hv : s₁.engine.heap.keyAt j = some v := hv
    rw [hd.keys] at hv
    rw [hd.colAt]
    split_ifs at hv with hmem
    · exact hmem.2
    · exact hheld j (hproblem ▸ hj) v (keyAt_of_left hkeys hv).2

/-- The invariants of the vectors between two events of a search over a job. -/
structure Steady (rows cols : IndexRange) (s : LineSearch K) : Prop where
  balanced : s.engine.Balanced
  aligned : s.engine.Aligned rows cols
  held : s.HeldKeys

variable {e : Engine K}

theorem Steady.event (hp : e.problem.Accepted) {job : Job} (hjob : job.Covers e.problem.tree)
    (hs : Searching e job.rows s) (hsteady : Steady job.rows job.cols s) (he : Event s s' id key) :
    Steady job.rows job.cols s' := by
  have hheld := he.heldKeys hs.regular hsteady.held
  obtain ⟨heap, s₁, hvalid, hkeys, hevent, rfl⟩ := he.freed_or_dropped
  have hr : (s.goTo heap (max 0 key)).engine.Regular := hs.regular.of_heap hvalid
  have hb : (s.goTo heap (max 0 key)).engine.Balanced :=
    hsteady.balanced.of_eq rfl (fun _ => rfl) (fun _ => rfl) rfl rfl rfl rfl rfl rfl
  have ha : (s.goTo heap (max 0 key)).engine.Aligned job.rows job.cols := hsteady.aligned
  rcases hevent with ⟨hid, hf⟩ | ⟨k, delta, rfl, hd⟩
  · exact ⟨hf.balanced hr (hsteady.held id hid key he.first.1) hb, hf.aligned ha, hheld⟩
  · have hfirst := he.first.1
    rw [hs.problem] at hfirst
    have hzero := hs.zero_at_drop hfirst
    have hk := (hs.row_key k key hfirst).1
    refine ⟨hd.balanced hr hzero hb, hd.aligned hr hk (fun l hl => ?_) ha, hheld⟩
    show s.engine.problem.a.coeff k l = 0
    rw [hs.problem]
    exact hp.coeff_eq_zero hjob hk hl

theorem Steady.walks (hp : e.problem.Accepted) {job : Job} (hjob : job.Covers e.problem.tree)
    (hs : Searching e job.rows s) (hsteady : Steady job.rows job.cols s) (hw : Walks s s') :
    Steady job.rows job.cols s' := by
  induction hw with
  | refl => exact hsteady
  | tail hwalks hstep ih =>
      obtain ⟨id, key, hevent⟩ := hstep
      exact ih.event hp hjob (hs.walks hwalks) hevent

end LineSearch

namespace Engine

variable {e e' g : Engine K} {p : Problem K} {settings : Settings K} {job : Job} {out : LineOutcome K}

theorem HasCandidates.heldKeys {rows cols : IndexRange} (hc : e.HasCandidates rows cols e') {a b : K} :
    LineSearch.HeldKeys ⟨e', 0, a, b, false, none⟩ := by
  obtain ⟨heap, rfl, -, hcols, -⟩ := hc
  intro j hj v hv hfree
  have hv : heap.keyAt j = some v := hv
  have hfree : e.set.colAt j = .free := hfree
  rw [hcols j hj, columnBreak?, hfree] at hv
  split_ifs at hv with hin hmoves
  exact absurd hmoves.1 (by simp [movesInwards])

/-- A search keeps the vectors in step with the multipliers. -/
theorem Balanced.of_searched (hp : e.problem.Accepted) (hjob : job.Covers e.problem.tree) (hr : e.Regular)
    (hf : e.DualFeasible) (hb : e.Balanced) (hs : e.Searched job.rows job.cols out e') : e'.Balanced := by
  cases hs with
  | flat hd _ => exact hb.of_hasDirections hd
  | moved hd hslope hc hfinishes hadvanced =>
      rename_i e₁ e₂ s flag
      have hr₁ := hd.regular hr
      have hb₁ := hb.of_hasDirections hd
      have ha₁ := hd.aligned hp hjob
      have h₁ : e₁.DualFeasible ∧ e₁.problem = e.problem := by
        obtain ⟨pa, rfl, -⟩ := hd
        exact ⟨hf.of_eq (fun _ => rfl) rfl rfl, rfl⟩
      have hsteady : LineSearch.Steady job.rows job.cols
          ⟨e₂, 0, e₁.slopeAt job.rows job.cols, e₁.curvatureAt job.rows job.cols, false, none⟩ :=
        ⟨hb₁.of_hasCandidates hc, ha₁.of_hasCandidates hc, hc.heldKeys⟩
      have hend : s.engine.Balanced ∧ s.engine.Aligned job.rows job.cols := by
        cases hfinishes with
        | full _ => exact ⟨hsteady.balanced, hsteady.aligned⟩
        | walk hwalks hends =>
            rw [hends.engine]
            have hsearching := hc.searching hr₁ h₁.1 (s := e₁.slopeAt job.rows job.cols)
              (c := e₁.curvatureAt job.rows job.cols)
            have hlast := hsteady.walks (by rw [h₁.2]; exact hp) (by rw [h₁.2]; exact hjob) hsearching hwalks
            exact ⟨hlast.balanced, hlast.aligned⟩
      exact hend.1.of_hasAdvanced hend.2 hadvanced

theorem Balanced.of_runStep (hp : e.problem.Accepted) (hr : e.Regular) (hf : e.DualFeasible) (hb : e.Balanced)
    (h : RunStep e e') : e'.Balanced := by
  cases h with
  | quiet h => exact h.sameState.balanced hb
  | commit h => exact (sameState_of_commit h).balanced hb
  | schedule s => exact hb.of_eq rfl (fun _ => rfl) (fun _ => rfl) rfl rfl rfl rfl rfl rfl
  | solve h =>
      obtain ⟨fwd, u, t, stats, rfl⟩ := of_solveJob h
      exact hb.of_eq rfl (fun _ => rfl) (fun _ => rfl) rfl rfl rfl rfl rfl rfl
  | search hjob _ h => exact hb.of_searched hp hjob hr hf h

theorem Balanced.of_runs (hp : e.problem.Accepted) (hr : e.Regular) (hf : e.DualFeasible) (hb : e.Balanced)
    (h : Runs e e') : e'.Balanced := by
  induction h with
  | refl => exact hb
  | tail hruns hstep ih =>
      obtain ⟨hr', hproblem, -⟩ := Runs.regular hruns hr
      exact ih.of_runStep (by rw [hproblem]; exact hp) hr' (Runs.dualFeasible hruns hr hf) hstep

/-- Throughout a run the vectors are in step with the multipliers, if these are on the sides of the active rows at its
start. -/
theorem Underway.workspace_balanced (hp : p.Accepted) (h : Reachable p settings e)
    (hside : ∀ i, (e.set.rowAt i).isActive = true → (e.set.rowAt i).Admits (coord e.lambda i))
    (hu : e.Underway g) :
    (∀ j < p.ncols, coord g.work.reference j + coord g.work.c j = coord p.y j +
      ∑ i ∈ Finset.range p.nrows, p.a.coeff i j * (coord g.lambda i + coord g.dlambda i)) ∧
    (∀ j < p.ncols, coord g.work.c j - coord g.work.cold j =
      ∑ i ∈ Finset.range p.nrows with (g.set.rowAt i).isActive, p.a.coeff i j * coord g.dlambda i) ∧
    (∀ i < p.nrows, (g.set.rowAt i).isActive = true → coord g.work.rhs i = g.boundAt i -
      (∑ j ∈ Finset.range p.ncols, p.a.coeff i j * coord g.work.reference j) -
      ∑ j ∈ Finset.range p.ncols with g.set.colAt j = .free, p.a.coeff i j * coord g.work.cold j) ∧
    ∀ i, g.set.rowAt i = .dropped → coord g.lambda i = 0 ∧ coord g.dlambda i = 0 := by
  have hrests := h.rests hp
  have hp' : e.problem.Accepted := by rwa [hrests.problem]
  obtain ⟨e₀, e₁, hquiet, hrebased, hruns⟩ := hu.runs hp' hrests.regular
  have hr₀ := hquiet.sameState.regular hrests.regular
  have hr₁ := hrebased.regular hr₀
  have hf₁ := hrebased.dualFeasible fun i hi => by
    rw [hquiet.sameState.rowAt] at hi ⊢
    rw [hquiet.sameState.lambda, hquiet.sameState.dlambda, hrests.still, add_zero]
    exact hside i hi
  have hproblem₁ : e₁.problem = p := by rw [hrebased.problem_eq, hquiet.sameState.problem, hrests.problem]
  have hb := (hrebased.balanced hr₀).of_runs (by rwa [hproblem₁]) hr₁ hf₁ hruns
  have hf := hruns.dualFeasible hr₁ hf₁
  have hproblem : g.problem = p := (hruns.regular hr₁).2.1.trans hproblem₁
  refine ⟨fun j hj => ?_, fun j hj => ?_, fun i _ hact => ?_, hf.dropped⟩
  · rw [← hproblem] at hj ⊢
    exact hb.column j hj
  · rw [← hproblem] at hj ⊢
    rw [hb.moved j hj, Finset.sum_filter]
    refine Finset.sum_congr rfl fun i _ => ?_
    split_ifs with hact
    · rfl
    · rw [(hf.dropped i (ActiveSet.isActive_eq_false_iff.1 (eq_false_of_ne_true hact))).2, mul_zero]
  · rw [← hproblem, hb.rhs i hact, Finset.sum_filter]
    simp only [mul_ite, mul_zero]
    rfl

/-- An engine that holds the row of the half-line, before a run and after the first job of it. -/
def processHalfLine : Checked (Problem ℚ × Engine ℚ × Engine ℚ × Engine ℚ) := do
  let p ← accepted Problem.halfLine
  let e ← accepted (create p plain)
  let added ← e.addRow 0 .lower
  let e₁ ← added.2.rebase
  let committed ← e₁.commit false
  let schedule ← Schedule.seed committed.2.problem.tree committed.2.set.rows
  let processed ← processJobs { committed.2 with schedule := schedule } schedule.jobs
  return (p, added.2, committed.2, processed.2)

theorem balanced_halfLine : ∃ (p : Problem ℚ) (e g : Engine ℚ), p.Accepted ∧ Reachable p plain e ∧
    (∀ i, (e.set.rowAt i).isActive = true → (e.set.rowAt i).Admits (coord e.lambda i)) ∧ e.Underway g ∧
    coord g.dlambda 0 ≠ 0 ∧ ∀ j < p.ncols, coord g.work.reference j + coord g.work.c j = coord p.y j +
      ∑ i ∈ Finset.range p.nrows, p.a.coeff i j * (coord g.lambda i + coord g.dlambda i) := by
  obtain ⟨⟨p, e, e₂, g⟩, hrun, hcheck⟩ := exists_of_passes (x := processHalfLine)
    (f := fun r => r.2.1.lambda == #[0] && r.2.2.1.set.activeCount != 0 && r.2.2.2.dlambda[0]? == some (1 / 2))
    (by decide +kernel)
  unfold processHalfLine at hrun
  simp only [bind_eq_ok_iff, accepted_eq_ok_iff, pure_eq_ok_iff, Prod.mk.injEq] at hrun
  obtain ⟨p, hp, _, hcreate, ⟨b, e⟩, hadd, e₁, hrebase, ⟨refactored, _⟩, hcommit, schedule, hseed, ⟨jobs, g⟩,
    hprocess, rfl, rfl, rfl, rfl⟩ := hrun
  simp only [Bool.and_eq_true, beq_iff_eq, bne_iff_ne] at hcheck
  obtain ⟨⟨hlambda, hactive⟩, hmoved⟩ := hcheck
  have hreachable : Reachable p plain e := .addRow (.create hcreate) hadd
  have hside : ∀ i, (e.set.rowAt i).isActive = true → (e.set.rowAt i).Admits (coord e.lambda i) := fun i _ =>
    admits_of_lambda_eq hlambda i
  have hunderway : e.Underway g := .processed (Quiet.refl e) (.first hrebase hcommit hactive hseed) (Quiet.refl _)
    (List.append_nil _).symm hprocess
  refine ⟨p, e, g, .create hp, hreachable, hside, hunderway, ?_,
    (Underway.workspace_balanced (.create hp) hreachable hside hunderway).1⟩
  rw [coord, hmoved]
  norm_num

end Engine

end PolyProjection
