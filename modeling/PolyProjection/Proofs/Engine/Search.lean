import Mathlib
import PolyProjection.Proofs.Engine.Sound

/-! A line search is carried out, whatever the multipliers. Its candidates are bound columns and leaving rows of the
job, each event takes one of them out of the working set, and no division has a zero divisor. -/

namespace PolyProjection

set_option linter.unusedSectionVars false

variable {K : Type} [Field K] [LinearOrder K] [IsStrictOrderedRing K]

namespace Engine

variable {e e' : Engine K} {rows cols : IndexRange} {i j : ℕ}

section Start

variable (hs : e.Sound)

include hs

theorem Sound.directionEntry_ok (rows : IndexRange) (hj : j < e.problem.ncols) :
    ∃ v, e.directionEntry rows j = .ok v := by
  have hf := hs.regular.problem.formatted
  obtain ⟨column, hcolumn, hlist⟩ := hf.toFits.column_ok hj
  rw [directionEntry, hcolumn, ok_bind, hlist]
  refine (foldlM_carries (fun _ => True) trivial fun x hx s _ => ?_).imp fun v hv => hv.1
  have hi : x.1 < e.problem.nrows := hf.row_lt j x ((List.takeWhile_sublist _).subset hx)
  have ht : x.1 < e.work.t.size := hs.work.t ▸ hi
  simp only [hs.isRowActive_ok hi, ok_bind]
  split_ifs
  · exact ⟨_, bind_eq_ok_iff.2 ⟨_, fetch_coord ht, rfl⟩, trivial⟩
  · exact ⟨_, rfl, trivial⟩

theorem Sound.setDirections_ok (rows : IndexRange) {cols : IndexRange} (hcols : cols.stop ≤ e.problem.ncols) :
    ∃ e', e.setDirections rows cols = .ok e' ∧ e'.Sound := by
  obtain ⟨pa, hpa, hsize⟩ := foldlM_carries (fun pa : Array K => pa.size = e.problem.ncols) hs.work.pa
    (l := span cols.start cols.stop) (f := fun pa j => do store pa j (← e.directionEntry rows j))
    fun j hj pa hsize => by
      have hj : j < e.problem.ncols := (mem_span.1 hj).2.trans_le hcols
      obtain ⟨v, hv⟩ := hs.directionEntry_ok rows hj
      exact ⟨_, bind_eq_ok_iff.2 ⟨v, hv, store_of_lt' v (hsize ▸ hj)⟩, by rw [Array.size_setIfInBounds, hsize]⟩
  have hw := hs.work
  exact ⟨_, bind_eq_ok_iff.2 ⟨pa, hpa, rfl⟩,
    hs.of_work ⟨hw.reference, hw.c, hw.cold, hsize, hw.rhs, hw.fwd, hw.u, hw.t⟩⟩

theorem Sound.startSlope_ok (hrows : rows.stop ≤ e.problem.nrows) (hcols : cols.stop ≤ e.problem.ncols) :
    ∃ r, e.startSlope rows cols = .ok r := by
  have hw := hs.work
  unfold startSlope
  rw [hs.regular.activeIn_ok hrows, ok_bind]
  refine (bind_carries (foldlM_carries (fun _ => True) trivial fun i hi c _ => ?_) fun r _ =>
    foldlM_carries (fun _ => True) trivial fun j hj c _ => ?_).imp fun r hr => hr.1
  · have hi : i < e.problem.nrows := (ActiveSet.mem_activeBetween.1 hi).2.2.trans_le hrows
    simp only [fetch_coord (show i < e.work.t.size by rw [hw.t]; exact hi),
      fetch_coord (show i < e.work.rhs.size by rw [hw.rhs]; exact hi),
      fetch_coord (show i < e.dlambda.size by rw [hs.regular.size_dlambda]; exact hi), ok_bind]
    exact ⟨_, rfl, trivial⟩
  · obtain ⟨fd, sd⟩ := c
    have hj : j < e.problem.ncols := (mem_span.1 hj).2.trans_le hcols
    dsimp only
    rw [hs.isFree_ok hj, ok_bind]
    split_ifs
    · exact ⟨_, rfl, trivial⟩
    · simp only [fetch_coord (show j < e.work.pa.size by rw [hw.pa]; exact hj),
        fetch_coord (show j < e.work.c.size by rw [hw.c]; exact hj),
        fetch_coord (show j < e.work.cold.size by rw [hw.cold]; exact hj), ok_bind]
      exact ⟨_, rfl, trivial⟩

end Start

theorem ne_zero_of_movesInwards {st : ColumnStatus} {p : K} (h : movesInwards st p = true) : p ≠ 0 := by
  rintro rfl
  cases st <;> simp [movesInwards] at h

theorem held_of_movesInwards {st : ColumnStatus} {p : K} (h : movesInwards st p = true) : st ≠ .free := by
  rintro rfl
  cases h

/-- Items with numbers of their own enter the heap one after the other. -/
theorem insertions_ok {n : ℕ} {f : BreakHeap K → ℕ → Checked (BreakHeap K)} (number : ℕ → ℕ) {l : List ℕ}
    {heap : BreakHeap K} (hv : heap.Valid n) (hl : l.Nodup) (hinj : Function.Injective number)
    (hnone : ∀ i ∈ l, ¬ heap.Has (number i)) (step : ∀ i ∈ l, ∀ g : BreakHeap K, g.Valid n → ¬ g.Has (number i) →
      ∃ g', f g i = .ok g' ∧ g'.Valid n ∧ ∀ d, g'.Has d → d = number i ∨ g.Has d) :
    ∃ heap', l.foldlM f heap = .ok heap' ∧ heap'.Valid n ∧ ∀ d, heap'.Has d → heap.Has d ∨ ∃ i ∈ l, d = number i := by
  refine foldlM_succeeds (fun done (g : BreakHeap K) => g.Valid n ∧ ∀ d, g.Has d → heap.Has d ∨ ∃ i ∈ done, d = number i)
    ⟨hv, fun d hd => .inl hd⟩ fun done i rest g hsplit hg => ?_
  have hi : i ∈ l := by rw [hsplit]; simp
  obtain ⟨g', hok, hv', hhas⟩ := step i hi g hg.1 fun hin => by
    rcases hg.2 _ hin with hold | ⟨k, hk, heq⟩
    · exact hnone i hi hold
    · rw [hsplit, List.nodup_append] at hl
      exact hl.2.2 k hk i List.mem_cons_self (hinj heq).symm
  refine ⟨g', hok, hv', fun d hd => ?_⟩
  rcases hhas d hd with rfl | hd
  · exact .inr ⟨i, by simp, rfl⟩
  · exact (hg.2 d hd).imp_right fun ⟨k, hk, heq⟩ => ⟨k, List.mem_append_left _ hk, heq⟩

theorem Sound.setCandidates_ok (hs : e.Sound) (hrows : rows.stop ≤ e.problem.nrows)
    (hcols : cols.stop ≤ e.problem.ncols) : ∃ e', e.setCandidates rows cols = .ok e' := by
  have hw := hs.work
  have hcol : ∀ j ∈ span cols.start cols.stop, j < e.problem.ncols := fun j hj => (mem_span.1 hj).2.trans_le hcols
  have hrow : ∀ i ∈ e.set.activeBetween rows.start rows.stop, i < e.problem.nrows := fun i hi =>
    (ActiveSet.mem_activeBetween.1 hi).2.2.trans_le hrows
  obtain ⟨heap₀, hclear, hv₀, hnone, -⟩ := hs.regular.heap.clear_ok
  obtain ⟨heap₁, hfirst, hv₁, hhas₁⟩ := insertions_ok (f := e.addColumnCandidate) id hv₀ (nodup_span _ _)
    Function.injective_id (fun j _ => hnone j) fun j hj g hg hnot => by
      have hj := hcol j hj
      unfold addColumnCandidate
      rw [fetch_coord (by rw [hw.pa]; exact hj), ok_bind, fetch_coord (by rw [hw.c]; exact hj), ok_bind,
        hs.fetch_colStatus hj, ok_bind]
      split_ifs with hmoves
      · rw [Scalar.quotient_of_ne_zero (ne_zero_of_movesInwards hmoves), ok_bind]
        split_ifs
        · obtain ⟨g', hok, hg', hhas, -⟩ := hg.insert_ok (show j < _ by omega) hnot _
          exact ⟨g', hok, hg', fun d hd => (hhas d).1 hd⟩
        · exact ⟨g, rfl, hg, fun d hd => .inr hd⟩
      · exact ⟨g, rfl, hg, fun d hd => .inr hd⟩
  obtain ⟨heap₂, hsecond, -⟩ := insertions_ok (f := e.addRowCandidate) (fun i => e.problem.ncols + i) hv₁
    ((ActiveSet.activeBetween_ascending _ _ _).imp Nat.ne_of_lt) (add_right_injective _) (fun i _ hin => by
      rcases hhas₁ _ hin with hin | ⟨j, hj, heq⟩
      · exact hnone _ hin
      · have := hcol j hj
        simp only [id] at heq
        omega) fun i hi g hg hnot => by
      have hi := hrow i hi
      unfold addRowCandidate
      rw [fetch_coord (by rw [hw.t]; exact hi), ok_bind, hs.fetch_rowStatus hi, ok_bind]
      split_ifs with hmoves
      · rw [fetch_coord (by rw [hs.regular.size_lambda]; exact hi), ok_bind,
          fetch_coord (by rw [hs.regular.size_dlambda]; exact hi), ok_bind,
          Scalar.quotient_of_ne_zero (LineSearch.ne_zero_of_movesToZero hmoves), ok_bind]
        split_ifs
        · obtain ⟨g', hok, hg', hhas, -⟩ := hg.insert_ok (show e.problem.ncols + i < _ by omega) hnot _
          exact ⟨g', hok, hg', fun d hd => (hhas d).1 hd⟩
        · exact ⟨g, rfl, hg, fun d hd => .inr hd⟩
      · exact ⟨g, rfl, hg, fun d hd => .inr hd⟩
  refine ⟨{ e with heap := heap₂ }, ?_⟩
  unfold setCandidates
  rw [hclear, ok_bind, hfirst, ok_bind, hs.regular.activeIn_ok hrows, ok_bind, hsecond]
  rfl

theorem Sound.shiftRhs_ok (hs : e.Sound) (hj : j < e.problem.ncols) (v : K → K) (mark : Option ℕ) :
    ∃ mark' rhs, e.shiftRhs j v mark = .ok (mark', { e with work := { e.work with rhs := rhs } }) ∧
      rhs.size = e.problem.nrows := by
  have hf := hs.regular.problem.formatted
  obtain ⟨column, hcolumn, hlist⟩ := hf.toFits.column_ok hj
  have hshift : ∃ r, e.shiftRhs j v mark = .ok r ∧ ∃ rhs, r.2 = { e with work := { e.work with rhs := rhs } } ∧
      rhs.size = e.problem.nrows := by
    unfold shiftRhs
    rw [hcolumn, ok_bind, ← Array.foldlM_toList]
    refine bind_carries (foldlM_carries (fun r => r.1.size = e.problem.nrows) hs.work.rhs fun x hx r hr => ?_)
      fun r hr => ⟨_, rfl, r.1, rfl, hr⟩
    have hi : x.1 < e.problem.nrows := hf.row_lt j x (hlist ▸ hx)
    dsimp only
    rw [hs.isRowActive_ok hi, ok_bind]
    split_ifs
    · rw [adjust_coord _ (by rw [hr]; exact hi), ok_bind]
      exact ⟨_, rfl, by rw [Array.size_setIfInBounds, hr]⟩
    · exact ⟨_, rfl, hr⟩
  obtain ⟨⟨mark', g⟩, hok, rhs, rfl, hsize⟩ := hshift
  exact ⟨mark', rhs, hok, hsize⟩

theorem Sound.placeColumn_ok (hs : e.Sound) (hj : j < e.problem.ncols) (p key : K) (status : ColumnStatus) :
    ∃ heap, e.placeColumn j p key status = .ok { e with heap := heap } ∧
      heap.Valid (e.problem.ncols + e.problem.nrows) := by
  classical
  have hv := hs.regular.heap
  have hlt : j < e.problem.ncols + e.problem.nrows := by omega
  have hcontains := hv.contains_eq hlt
  unfold placeColumn
  by_cases hmoves : (movesInwards status p && decide (key < 1)) = true <;> by_cases hin : e.heap.Has j
  all_goals simp only [hmoves, hcontains, hin, decide_true, decide_false, if_true, Bool.false_eq_true, if_false, ok_bind]
  · obtain ⟨heap, hok, hheap, -⟩ := hv.update_ok hin key
    exact ⟨heap, by rw [hok]; rfl, hheap⟩
  · obtain ⟨heap, hok, hheap, -⟩ := hv.insert_ok hlt hin key
    exact ⟨heap, by rw [hok]; rfl, hheap⟩
  · obtain ⟨heap, hok, hheap, -⟩ := hv.delete_ok hin
    exact ⟨heap, by rw [hok]; rfl, hheap⟩
  · exact ⟨e.heap, rfl, hv⟩

/-- A break value at a direction of zero is computed and then discarded. -/
theorem placeColumn_of_still (e : Engine K) (j : ℕ) (key key' : K) (status : ColumnStatus) :
    e.placeColumn j 0 key status = e.placeColumn j 0 key' status := by
  have hstill : movesInwards status (0 : K) = false := by cases status <;> simp [movesInwards]
  unfold placeColumn
  simp only [hstill, Bool.false_and, Bool.false_eq_true, if_false]

/-- A row leaves the working set, with its multiplier. -/
theorem Sound.of_deactivate (hs : e.Sound) {k : ℕ} {set : ActiveSet} (hok : e.set.deactivate k = .ok set) (v w : K)
    (work : Workspace K) (hw : work.Fits e.problem.nrows e.problem.ncols) : Sound { e with
      set := set
      lambda := e.lambda.setIfInBounds k v
      dlambda := e.dlambda.setIfInBounds k w
      work := work } := by
  obtain ⟨-, -, -, rows, hform⟩ := hs.regular.set.of_deactivate hok
  exact ⟨hs.regular.of_deactivate hok v w work, hw,
    hs.columns.of_bound_eq (by rw [hform]) (by rw [hform]) (by rw [hform]) (by rw [hform])⟩

end Engine

namespace LineSearch

variable {s s' : LineSearch K} {j k : ℕ}

theorem freeColumn_ok (hs : s.engine.Sound) (hj : j < s.engine.problem.ncols) (hheld : s.engine.set.colAt j ≠ .free) :
    ∃ s', s.freeColumn j = .ok s' ∧ s'.engine.Sound := by
  have hw := hs.work
  obtain ⟨mark, rhs, hshift, hsize⟩ := hs.shiftRhs_ok hj (· * coord s.engine.work.cold j) s.mark
  have hs₁ := hs.of_work (w := { s.engine.work with rhs := rhs })
    ⟨hw.reference, hw.c, hw.cold, hw.pa, hsize, hw.fwd, hw.u, hw.t⟩
  obtain ⟨e', hrelease, hs'⟩ := hs₁.releaseColumn_ok hj hheld
  refine ⟨{ s with
    engine := e'.tell (.columnFreedInSearch j)
    curvature := s.curvature + coord s.engine.work.pa j * coord s.engine.work.pa j
    mark := mark }, ?_, (Engine.quiet_tell e' _).sameState.sound hs'⟩
  unfold freeColumn
  dsimp only
  rw [fetch_coord (by rw [hw.pa]; exact hj), ok_bind, fetch_coord (by rw [hw.cold]; exact hj), ok_bind, hshift, ok_bind]
  dsimp only
  rw [hrelease]
  rfl

theorem rowSlope_ok (hs : s.engine.Sound) (hk : k < s.engine.problem.nrows) (delta : K) :
    ∃ g, s.rowSlope k delta = .ok g := by
  have hw := hs.work
  have hT := hs.regular.problem.transpose
  obtain ⟨column, hcolumn, hlist⟩ := hT.fits.column_ok (j := k) (by rw [hT.ncols]; exact hk)
  unfold rowSlope
  dsimp only
  rw [hcolumn, ok_bind, fetch_coord (by rw [hw.rhs]; exact hk), ok_bind, ← Array.foldlM_toList, hlist]
  refine (foldlM_carries (fun _ => True) trivial fun x hx g _ => ?_).imp fun g hg => hg.1
  have hj : x.1 < s.engine.problem.ncols := hT.col_lt k x hx
  rw [hs.isFree_ok hj, ok_bind]
  split_ifs
  · simp only [fetch_coord (show x.1 < s.engine.work.c.size by rw [hw.c]; exact hj),
      fetch_coord (show x.1 < s.engine.work.pa.size by rw [hw.pa]; exact hj),
      fetch_coord (show x.1 < s.engine.work.cold.size by rw [hw.cold]; exact hj), ok_bind]
    exact ⟨_, rfl, trivial⟩
  · exact ⟨_, rfl, trivial⟩

theorem loseRow_ok (hs : s.engine.Sound) {x : ℕ × K} (hx : x.1 < s.engine.problem.ncols) (t delta : K) :
    ∃ s', loseRow t delta s x = .ok s' ∧ s'.engine.Sound ∧ s'.engine.problem = s.engine.problem := by
  obtain ⟨j, a⟩ := x
  have hw := hs.work
  have hc : j < s.engine.work.c.size := by rw [hw.c]; exact hx
  have hcold : j < s.engine.work.cold.size := by rw [hw.cold]; exact hx
  have hpa : j < s.engine.work.pa.size := by rw [hw.pa]; exact hx
  unfold loseRow
  simp only [fetch_coord hc, fetch_coord hpa, store_of_lt' _ hc, store_of_lt' _ hpa, adjust_coord _ hcold,
    hs.fetch_colStatus hx, ok_bind]
  set w : Workspace K := { s.engine.work with
    c := s.engine.work.c.setIfInBounds j (coord s.engine.work.c j + a * s.step * t)
    cold := s.engine.work.cold.setIfInBounds j (coord s.engine.work.cold j + a * delta)
    pa := s.engine.work.pa.setIfInBounds j (coord s.engine.work.pa j - a * t) }
  have hs₁ : Engine.Sound { s.engine with work := w } := hs.of_work
    ⟨hw.reference, by simp [w, hw.c], by simp [w, hw.cold], by simp [w, hw.pa], hw.rhs, hw.fwd, hw.u, hw.t⟩
  have hw₁ := hs₁.work
  cases s.engine.set.colAt j
  case free =>
    obtain ⟨mark, rhs, hshift, hsize⟩ := hs₁.shiftRhs_ok hx (fun aij => aij * a * delta) s.mark
    dsimp only at hshift ⊢
    rw [hshift]
    exact ⟨_, rfl, hs₁.of_work ⟨hw₁.reference, hw₁.c, hw₁.cold, hw₁.pa, hsize, hw₁.fwd, hw₁.u, hw₁.t⟩, rfl⟩
  case atLower =>
    obtain ⟨heap, hplace, hheap⟩ := hs₁.placeColumn_ok hx (coord s.engine.work.pa j - a * t) (Scalar.max s.step (s.step -
      (coord s.engine.work.c j + s.step * coord s.engine.work.pa j) / (coord s.engine.work.pa j - a * t))) .atLower
    dsimp only [Engine.rekeyColumn]
    rw [hplace]
    exact ⟨_, rfl, hs₁.of_heap hheap, rfl⟩
  case atUpper =>
    obtain ⟨heap, hplace, hheap⟩ := hs₁.placeColumn_ok hx (coord s.engine.work.pa j - a * t) (Scalar.max s.step (s.step -
      (coord s.engine.work.c j + s.step * coord s.engine.work.pa j) / (coord s.engine.work.pa j - a * t))) .atUpper
    dsimp only [Engine.rekeyColumn]
    rw [hplace]
    exact ⟨_, rfl, hs₁.of_heap hheap, rfl⟩

theorem dropRow_ok (hs : s.engine.Sound) (hact : (s.engine.set.rowAt k).isActive = true) :
    ∃ s', s.dropRow k = .ok s' ∧ s'.engine.Sound := by
  have hr := hs.regular
  have hk := hr.row_lt hact
  have hw := hs.work
  have hT := hr.problem.transpose
  obtain ⟨g, hg⟩ := rowSlope_ok hs hk (coord s.engine.dlambda k + s.step * coord s.engine.work.t k)
  obtain ⟨set, hset, -⟩ := hr.set.deactivate_ok hact
  obtain ⟨column, hcolumn, hlist⟩ := hT.fits.column_ok (j := k) (by rw [hT.ncols]; exact hk)
  have hs₁ := hs.of_deactivate hset 0 0 { s.engine.work with
    rhs := s.engine.work.rhs.setIfInBounds k (coord s.engine.work.rhs k - s.engine.boundAt k) }
    ⟨hw.reference, hw.c, hw.cold, hw.pa, by simp [hw.rhs], hw.fwd, hw.u, hw.t⟩
  set s₁ : LineSearch K := { s with
    engine := { s.engine with
      set := set
      lambda := s.engine.lambda.setIfInBounds k 0
      dlambda := s.engine.dlambda.setIfInBounds k 0
      work := { s.engine.work with
        rhs := s.engine.work.rhs.setIfInBounds k (coord s.engine.work.rhs k - s.engine.boundAt k) } }
    slope := s.slope - g * coord s.engine.work.t k
    curvature := s.curvature - s.engine.sigma * coord s.engine.work.t k * coord s.engine.work.t k
    mark := some ((s.mark.map (min · k)).getD k) } with hs₁def
  obtain ⟨s₂, hfold, hs₂, -⟩ := foldlM_carries
    (fun s₂ : LineSearch K => s₂.engine.Sound ∧ s₂.engine.problem = s.engine.problem) (l := column.toList) (b := s₁)
    (f := loseRow (coord s.engine.work.t k) (coord s.engine.dlambda k + s.step * coord s.engine.work.t k)) ⟨hs₁, rfl⟩
    fun x hx c hc => by
      obtain ⟨c', hok, hs', hproblem⟩ := loseRow_ok hc.1 (x := x) (by rw [hc.2]; exact hT.col_lt k x (hlist ▸ hx))
        (coord s.engine.work.t k) (coord s.engine.dlambda k + s.step * coord s.engine.work.t k)
      exact ⟨c', hok, hs', hproblem.trans hc.2⟩
  refine ⟨{ s₂ with engine := { s₂.engine with
      stats := { s₂.engine.stats with rowsDropped := s₂.engine.stats.rowsDropped + 1 }
      events := s₂.engine.events.push (.rowDropped k s₂.step) } }, ?_,
    ⟨hs₂.regular.problem, hs₂.regular.set, hs₂.regular.rows_fit, hs₂.regular.cols_fit, hs₂.regular.heap,
      hs₂.regular.size_lambda, hs₂.regular.size_dlambda⟩, hs₂.work, hs₂.columns⟩
  unfold dropRow
  simp only [fetch_coord (show k < s.engine.work.t.size by rw [hw.t]; exact hk),
    fetch_coord (show k < s.engine.dlambda.size by rw [hr.size_dlambda]; exact hk), ok_bind, hg, hr.rowBound_ok hk, hset,
    store_of_lt' _ (show k < s.engine.lambda.size by rw [hr.size_lambda]; exact hk),
    store_of_lt' _ (show k < s.engine.dlambda.size by rw [hr.size_dlambda]; exact hk),
    adjust_coord _ (show k < s.engine.work.rhs.size by rw [hw.rhs]; exact hk), hcolumn]
  rw [← Array.foldlM_toList, hfold]
  rfl

end LineSearch

end PolyProjection
