import Mathlib
import PolyProjection.Proofs.Engine.Ascending
import PolyProjection.Proofs.Engine.Locality

/-! The work on a job goes the same way in states that are alike. Two searches at the same point have the same break values
ahead, so the same event comes first in both of them, it does the same, and it leaves them at the same point again. -/

namespace PolyProjection

set_option linter.unusedSectionVars false

variable {K : Type} [Field K] [LinearOrder K] [IsStrictOrderedRing K]

namespace LineSearch

open Engine

/-- Two searches over a job are at the same point, with the same break values ahead. -/
structure InStep (job : Job) (s r : LineSearch K) : Prop where
  alike : Alike job s.engine r.engine
  keyAt : ∀ c, r.engine.heap.keyAt c = s.engine.heap.keyAt c
  step : r.step = s.step
  slope : r.slope = s.slope
  curvature : r.curvature = s.curvature
  changed : r.changed = s.changed
  mark : r.mark = s.mark

variable {s s' s'' r r' : LineSearch K} {job : Job} {id id' j k : ℕ} {key key' delta delta' : K} {flag flag' : LineFlag}

/-! ### Events -/

theorem InStep.goTo (hi : InStep job s r) {heap heap' : BreakHeap K} (hkeys : ∀ c, heap'.keyAt c = heap.keyAt c)
    (next : K) : InStep job (s.goTo heap next) (r.goTo heap' next) where
  alike := { hi.alike with }
  keyAt := hkeys
  step := rfl
  slope := by rw [LineSearch.goTo, LineSearch.goTo, hi.slope, hi.curvature, hi.step]
  curvature := hi.curvature
  changed := hi.changed
  mark := hi.mark

theorem InStep.columnFreed (hi : InStep job s r) (hs : s.engine.Regular) (hr : r.engine.Regular)
    (hj : j ∈ job.cols.indices) (hf : ColumnFreed s s' j) (hf' : ColumnFreed r r' j) :
    InStep job s' r' ∧ SameDone s.engine s'.engine r.engine r'.engine := by
  have ha := hi.alike
  have hsame : SameDone s.engine s'.engine r.engine r'.engine := ⟨_, hf.does hs, ha.freeing_eq hj ▸ hf'.does hr⟩
  refine ⟨⟨hsame.alike ha, fun c => ?_, ?_, ?_, ?_, ?_, mark_ext fun i => ?_⟩, hsame⟩
  · rw [hf'.heap, hf.heap, hi.keyAt]
  · rw [hf'.step, hf.step, hi.step]
  · rw [hf'.slope, hf.slope, hi.slope]
  · rw [hf'.curvature, hf.curvature, hi.curvature, ha.pa hj]
  · rw [hf'.changed, hf.changed, hi.changed]
  · rw [hf'.mark, hf.mark, hi.mark, ha.problem]
    refine or_congr_right (exists_congr fun x => and_congr_right fun hx => ?_)
    rw [ha.met j hj x hx]

/-- Two searches in step find the same in a column of the job. -/
theorem InStep.cell_eq (hi : InStep job s r) (hj : j ∈ job.cols.indices) :
    r.engine.set.colAt j = s.engine.set.colAt j ∧ coord r.engine.work.c j = coord s.engine.work.c j ∧
      coord r.engine.work.cold j = coord s.engine.work.cold j ∧ coord r.engine.work.pa j = coord s.engine.work.pa j :=
  ⟨colAt_of_cell (hi.alike.column j hj), c_of_cell (hi.alike.column j hj), cold_of_cell (hi.alike.column j hj),
    hi.alike.pa hj⟩

section Drop

variable (hp : s.engine.problem.Accepted) (hjob : job.Covers s.engine.problem.tree) (hi : InStep job s r)
  (hk : k ∈ job.rows.indices) (hd : RowDropped s s' k delta) (hd' : RowDropped r r' k delta')

include hi hk hd hd'

theorem InStep.delta_eq : delta' = delta := by
  rw [hd'.delta_eq, hd.delta_eq, hi.step, hi.alike.t hk, dlambda_of_cell (hi.alike.row k hk)]

include hp hjob

theorem InStep.slope_of_rowDropped : r'.slope = s'.slope := by
  have hsum : (∑ j ∈ Finset.range r.engine.problem.ncols, r.engine.problem.a.coeff k j *
      if r.engine.set.colAt j = .free then
        coord r.engine.work.c j + r.step * coord r.engine.work.pa j - coord r.engine.work.cold j else 0) =
      ∑ j ∈ Finset.range s.engine.problem.ncols, s.engine.problem.a.coeff k j *
        if s.engine.set.colAt j = .free then
          coord s.engine.work.c j + s.step * coord s.engine.work.pa j - coord s.engine.work.cold j else 0 :=
    hi.alike.sum_row_eq hp hjob hk fun j hj => by
      obtain ⟨hcol, hc, hcold, hpa⟩ := hi.cell_eq hj
      rw [hcol, hc, hcold, hpa, hi.step]
  rw [hd'.slope, hd.slope, hsum, hi.slope, hi.alike.rhs k hk, hi.alike.sigma, hi.delta_eq hk hd hd', hi.alike.t hk]

theorem InStep.curvature_of_rowDropped : r'.curvature = s'.curvature := by
  have hsum : (∑ j ∈ Finset.range r.engine.problem.ncols, r.engine.problem.a.coeff k j *
      if r.engine.set.colAt j = .free then coord r.engine.work.t k *
        (2 * coord r.engine.work.pa j - r.engine.problem.a.coeff k j * coord r.engine.work.t k) else 0) =
      ∑ j ∈ Finset.range s.engine.problem.ncols, s.engine.problem.a.coeff k j *
        if s.engine.set.colAt j = .free then coord s.engine.work.t k *
          (2 * coord s.engine.work.pa j - s.engine.problem.a.coeff k j * coord s.engine.work.t k) else 0 :=
    hi.alike.sum_row_eq hp hjob hk fun j hj => by
      obtain ⟨hcol, -, -, hpa⟩ := hi.cell_eq hj
      rw [hcol, hpa, hi.alike.t hk, hi.alike.problem]
  rw [hd'.curvature, hd.curvature, hsum, hi.curvature, hi.alike.sigma, hi.alike.t hk]

theorem InStep.rowDropped (hs : s.engine.Regular) (hr : r.engine.Regular) :
    InStep job s' r' ∧ SameDone s.engine s'.engine r.engine r'.engine := by
  have ha := hi.alike
  have hinner : ∀ j ∈ (s.engine.problem.aT.columnEntries k).map Prod.fst, j ∈ job.cols.indices := fun j hj =>
    hp.mem_cols_of_transpose hjob hj hk
  have hsame : SameDone s.engine s'.engine r.engine r'.engine := by
    refine ⟨_, hd.does hs, ?_⟩
    rw [← hi.step, ← ha.dropping_eq hp hjob hk]
    exact hd'.does hr
  refine ⟨⟨hsame.alike ha, fun c => ?_, ?_, hi.slope_of_rowDropped hp hjob hk hd hd',
    hi.curvature_of_rowDropped hp hjob hk hd hd', ?_, mark_ext fun i => ?_⟩, hsame⟩
  · rw [hd'.keys, hd.keys, ha.problem, hi.keyAt, hi.step, ha.t hk]
    by_cases hmeets : c ∈ (s.engine.problem.aT.columnEntries k).map Prod.fst
    · obtain ⟨hcol, hc, -, hpa⟩ := hi.cell_eq (hinner c hmeets)
      rw [hcol, hc, hpa]
    · rw [if_neg fun hall => hmeets hall.1, if_neg fun hall => hmeets hall.1]
  · rw [hd'.step, hd.step, hi.step]
  · rw [hd'.changed, hd.changed, hi.changed]
  · rw [hd'.mark, hd.mark, hi.mark, ha.problem]
    refine or_congr_right (or_congr_right (exists_congr fun x => and_congr_right fun hx => ?_))
    have hin := hinner x.1 (List.mem_map_of_mem hx)
    rw [(hi.cell_eq hin).1]
    refine and_congr_right fun _ => exists_congr fun y => and_congr_right fun hy => ?_
    rw [(hsame.alike ha).met x.1 hin y (hd.problem ▸ hy)]

end Drop

/-- The same event comes first in both searches, and it does the same. -/
theorem InStep.event (hp : s.engine.problem.Accepted) (hjob : job.Covers s.engine.problem.tree) (hi : InStep job s r)
    (hs : s.engine.Regular) (hr : r.engine.Regular) (hpursues : Pursues job.rows job.cols s) (he : Event s s' id key)
    (he' : Event r r' id' key') : InStep job s' r' ∧ SameDone s.engine s'.engine r.engine r'.engine := by
  have ha := hi.alike
  obtain ⟨rfl, rfl⟩ : id = id' ∧ key = key' := by
    have hfirst := hs.heap.peekMin_congr (ha.problem ▸ hr.heap) hi.keyAt
    rw [he.ran.1, he'.ran.1] at hfirst
    simpa [eq_comm] using hfirst
  obtain ⟨heap, s₁, hvalid, hkeys, hevent, rfl⟩ := he.freed_or_dropped
  obtain ⟨heap', r₁, hvalid', hkeys', hevent', rfl⟩ := he'.freed_or_dropped
  have hgo : InStep job (s.goTo heap (max 0 key)) (r.goTo heap' (max 0 key)) :=
    hi.goTo (fun c => by rw [hkeys', hkeys, hi.keyAt]) _
  have hstart : SameDone s.engine (s.goTo heap (max 0 key)).engine r.engine (r.goTo heap' (max 0 key)).engine :=
    sameDone_nothing _ _ heap heap' _ _ _ _
  suffices hdone : InStep job s₁ r₁ ∧
      SameDone (s.goTo heap (max 0 key)).engine s₁.engine (r.goTo heap' (max 0 key)).engine r₁.engine from
    ⟨{ hdone.1 with changed := rfl }, hstart.trans hdone.2⟩
  have hs := hs.of_heap hvalid
  have hr := hr.of_heap hvalid'
  rw [ha.problem] at hevent'
  rcases hevent with ⟨hid, hf⟩ | ⟨k, delta, rfl, hd⟩
  · rcases hevent' with ⟨-, hf'⟩ | ⟨k', -, rfl, -⟩
    · exact hgo.columnFreed hs hr (hpursues.column_key id hid key he.first.1).1 hf hf'
    · omega
  · rcases hevent' with ⟨hid, -⟩ | ⟨k', delta', heq, hd'⟩
    · omega
    · obtain rfl := Nat.add_left_cancel heq
      exact hgo.rowDropped hp hjob (hpursues.row_key k key he.first.1).1 hd hd' hs hr

/-! ### Walks -/

theorem InStep.symm (hi : InStep job s r) : InStep job r s where
  alike := hi.alike.symm
  keyAt c := (hi.keyAt c).symm
  step := hi.step.symm
  slope := hi.slope.symm
  curvature := hi.curvature.symm
  changed := hi.changed.symm
  mark := hi.mark.symm

/-- A walk that has an event ahead does not end. -/
theorem Event.not_ends (he : Event s s' id key) : ¬Ends s flag s'' := by
  intro hends
  cases hends with
  | nondifferentiable hslope => exact absurd he.slope_pos (not_lt.2 hslope)
  | degenerate _ hcurvature => exact absurd he.curvature_pos (not_lt.2 hcurvature)
  | interior _ hcurvature hfar =>
      rcases hfar id key he.first.1 with htop | hlate
      · have hgap := (div_le_iff₀ hcurvature).1 (le_sub_iff_add_le'.2 htop)
        have hahead := he.slope_ahead
        linarith
      · exact absurd he.lt_one (not_lt.2 hlate)
  | budget _ _ _ hlate _ => exact absurd he.lt_one (not_lt.2 (hlate id key he.first.1))

/-- A walk ends in one way only, as its break values lie before the full step. -/
theorem Ends.unique (hnear : ∀ c v, s.engine.heap.keyAt c = some v → v < 1) (he : Ends s flag s')
    (he' : Ends s flag' s'') : flag' = flag ∧ s'' = s' := by
  have hbudget : ¬((∃ c v, s.engine.heap.keyAt c = some v) ∧
      ∀ c v, s.engine.heap.keyAt c = some v → 1 ≤ max 0 v) := by
    rintro ⟨⟨c, v, hv⟩, hlate⟩
    exact absurd (max_lt zero_lt_one (hnear c v hv)) (not_lt.2 (hlate c v hv))
  cases he with
  | nondifferentiable hslope =>
      cases he' with
      | nondifferentiable _ => exact ⟨rfl, rfl⟩
      | degenerate hslope' _ => exact absurd hslope' (not_lt.2 hslope)
      | interior hslope' _ _ => exact absurd hslope' (not_lt.2 hslope)
      | budget hslope' _ _ _ _ => exact absurd hslope' (not_lt.2 hslope)
  | degenerate hslope hcurvature =>
      cases he' with
      | nondifferentiable hslope' => exact absurd hslope (not_lt.2 hslope')
      | degenerate _ _ => exact ⟨rfl, rfl⟩
      | interior _ hcurvature' _ => exact absurd hcurvature' (not_lt.2 hcurvature)
      | budget _ hcurvature' _ _ _ => exact absurd hcurvature' (not_lt.2 hcurvature)
  | interior hslope hcurvature _ =>
      cases he' with
      | nondifferentiable hslope' => exact absurd hslope (not_lt.2 hslope')
      | degenerate _ hcurvature' => exact absurd hcurvature (not_lt.2 hcurvature')
      | interior _ _ _ => exact ⟨rfl, rfl⟩
      | budget _ _ hsome hlate _ => exact absurd ⟨hsome, hlate⟩ hbudget
  | budget _ _ hsome hlate _ => exact absurd ⟨hsome, hlate⟩ hbudget

/-- Where the one search ends, the other one ends as well. -/
theorem InStep.ends (hi : InStep job s r) (he : Ends r flag r') :
    Ends s flag { s with step := r'.step } ∧ r' = { r with step := r'.step } := by
  have hstay : s = { s with step := r.step } := by rw [hi.step]
  cases he with
  | nondifferentiable hslope =>
      rw [← hstay]
      exact ⟨.nondifferentiable (hi.slope ▸ hslope), rfl⟩
  | degenerate hslope hcurvature =>
      rw [← hstay]
      exact ⟨.degenerate (hi.slope ▸ hslope) (hi.curvature ▸ hcurvature), rfl⟩
  | interior hslope hcurvature hfar =>
      refine ⟨?_, rfl⟩
      simp only [hi.keyAt, hi.slope, hi.curvature, hi.step] at hslope hcurvature hfar ⊢
      exact .interior hslope hcurvature hfar
  | budget hslope hcurvature hsome hlate hlong =>
      refine ⟨?_, rfl⟩
      simp only [hi.keyAt, hi.slope, hi.curvature, hi.step] at hslope hcurvature hsome hlate hlong ⊢
      exact .budget hslope hcurvature hsome hlate hlong

/-- Two searches that are in step walk in step and end alike. -/
theorem InStep.walk {n : ℕ} (hp : s.engine.problem.Accepted) (hjob : job.Covers s.engine.problem.tree)
    (hi : InStep job s r) (hs : s.engine.Regular) (hr : r.engine.Regular) (hpursues : Pursues job.rows job.cols s)
    (hnear : ∀ c v, s.engine.heap.keyAt c = some v → v < 1) (hslope : 0 < s.slope)
    (hok : LineSearch.walk n s = .ok (flag, s')) (hok' : LineSearch.walk n r = .ok (flag', r')) :
    flag' = flag ∧ InStep job s' r' ∧ SameDone s.engine s'.engine r.engine r'.engine := by
  induction n generalizing s r with
  | zero => cases hok
  | succ n ih =>
      have hslope' : 0 < r.slope := hi.slope ▸ hslope
      rcases walk_cases hs hslope hok with hends | ⟨s₁, id, key, he, hrest⟩
      · rcases walk_cases hr hslope' hok' with hends' | ⟨r₁, id', key', he', -⟩
        · obtain ⟨hends', hform⟩ := hi.ends hends'
          obtain ⟨rfl, heq⟩ := hends.unique hnear hends'
          rw [← heq, hform]
          exact ⟨rfl, { hi with step := rfl }, .refl _ _⟩
        · exact absurd (hi.symm.ends hends).1 he'.not_ends
      · rcases walk_cases hr hslope' hok' with hends' | ⟨r₁, id', key', he', hrest'⟩
        · exact absurd (hi.ends hends').1 he.not_ends
        obtain ⟨hi₁, hsame⟩ := hi.event hp hjob hs hr hpursues he he'
        rcases hrest with ⟨hstop, rfl, rfl⟩ | ⟨hpos, hwalk⟩
        · rcases hrest' with ⟨-, rfl, rfl⟩ | ⟨hpos', -⟩
          · exact ⟨rfl, hi₁, hsame⟩
          · exact absurd (hi₁.slope ▸ hpos') (not_lt.2 hstop)
        · rcases hrest' with ⟨hstop', -⟩ | ⟨-, hwalk'⟩
          · exact absurd hpos (not_lt.2 (hi₁.slope ▸ hstop'))
          have hproblem := he.frame.problem
          obtain ⟨hflag, hi', hsame'⟩ := ih (hproblem ▸ hp) (hproblem ▸ hjob) hi₁ he.regular he'.regular
            (he.pursues hs hpursues fun k hk j hj => hp.mem_cols_of_transpose hjob hj hk)
            (fun c v hv => he.near hnear hv) hpos hwalk hwalk'
          exact ⟨hflag, hi', hsame.trans hsame'⟩

theorem InStep.finish (hp : s.engine.problem.Accepted) (hjob : job.Covers s.engine.problem.tree) (hi : InStep job s r)
    (hs : s.engine.Regular) (hr : r.engine.Regular) (hpursues : Pursues job.rows job.cols s)
    (hnear : ∀ c v, s.engine.heap.keyAt c = some v → v < 1) (hslope : 0 < s.slope)
    (hok : s.finish = .ok (flag, s')) (hok' : r.finish = .ok (flag', r')) :
    flag' = flag ∧ InStep job s' r' ∧ SameDone s.engine s'.engine r.engine r'.engine := by
  have hempty : (r.engine.heap.size == 0) = (s.engine.heap.size == 0) := by
    rw [Bool.eq_iff_iff, beq_iff_eq, beq_iff_eq, hr.heap.size_eq_zero_iff, hs.heap.size_eq_zero_iff]
    simp only [hi.keyAt]
  unfold LineSearch.finish at hok hok'
  rw [hempty, hi.alike.problem] at hok'
  split_ifs at hok hok'
  · simp only [pure_eq_ok_iff, Prod.mk.injEq] at hok hok'
    obtain ⟨rfl, rfl⟩ := hok
    obtain ⟨rfl, rfl⟩ := hok'
    exact ⟨rfl, { hi with step := rfl }, .refl _ _⟩
  · exact hi.walk hp hjob hs hr hpursues hnear hslope hok hok'

end LineSearch

namespace Engine

variable {e e' g g' : Engine K} {job : Job} {out out' : LineOutcome K}

/-! ### Jobs -/

/-- A search has the same outcome in states that are alike. -/
theorem Alike.lineSearch (ha : Alike job e g) (hp : e.problem.Accepted) (hjob : job.Covers e.problem.tree)
    (hr : e.Regular) (hr' : g.Regular) (hok : e.lineSearch job.rows job.cols = .ok (out, e'))
    (hok' : g.lineSearch job.rows job.cols = .ok (out', g')) : out' = out ∧ SameDone e e' g g' := by
  have hstop := (hp.job_stop hjob).1
  have hstop' : job.rows.stop ≤ g.problem.nrows := ha.problem ▸ hstop
  rcases hr.lineSearch_finish hstop hok with ⟨hd, hflat, rfl⟩ | ⟨s₀, s, flag, hstarts, hfinish, hadvanced, rfl⟩
  · rcases hr'.lineSearch_finish hstop' hok' with ⟨hd', -, rfl⟩ | ⟨r₀, _, _, hstarts', -⟩
    · exact ⟨rfl, hd.sameDone ha hd'⟩
    · obtain ⟨g₁, _, hd', hslope', -⟩ := hstarts'.spec hr' hstop'
      have hslope := ((hd.sameDone ha hd').alike ha).slopeAt_eq
      exact absurd (hslope ▸ hslope') (not_lt.2 hflat)
  · obtain ⟨e₁, e₂, hd, hslope, hc, rfl⟩ := hstarts.spec hr hstop
    rcases hr'.lineSearch_finish hstop' hok' with ⟨hd', hflat', -⟩ | ⟨r₀, r, flag', hstarts', hfinish', hadvanced', rfl⟩
    · have hslope' := ((hd.sameDone ha hd').alike ha).slopeAt_eq
      exact absurd hslope (not_lt.2 (hslope' ▸ hflat'))
    obtain ⟨g₁, g₂, hd', -, hc', rfl⟩ := hstarts'.spec hr' hstop'
    have hsame₁ := hd.sameDone ha hd'
    have ha₁ := hsame₁.alike ha
    have hkeys := hc.keyAt_eq ha₁ hc'
    have hsame₂ : SameDone e₁ e₂ g₁ g₂ := by
      obtain ⟨heap, rfl, -⟩ := hc
      obtain ⟨heap', rfl, -⟩ := hc'
      exact sameDone_nothing _ _ heap heap' _ _ _ _
    have hproblem₂ : e₂.problem = e.problem := by
      obtain ⟨heap, rfl, -⟩ := hc
      obtain ⟨pa, rfl, -⟩ := hd
      rfl
    have hinstep : LineSearch.InStep job ⟨e₂, 0, e₁.slopeAt job.rows job.cols, e₁.curvatureAt job.rows job.cols, false, none⟩
        ⟨g₂, 0, g₁.slopeAt job.rows job.cols, g₁.curvatureAt job.rows job.cols, false, none⟩ :=
      ⟨hsame₂.alike ha₁, hkeys, rfl, ha₁.slopeAt_eq, ha₁.curvatureAt_eq, rfl, rfl⟩
    obtain ⟨rfl, hend, hsame₃⟩ := hinstep.finish (hproblem₂ ▸ hp) (hproblem₂ ▸ hjob) (hc.regular (hd.regular hr))
      (hc'.regular (hd'.regular hr')) hc.pursues (fun c v hv => hc.lt_one hv) hslope hfinish hfinish'
    rw [hend.step] at hadvanced'
    refine ⟨?_, ((hsame₁.trans hsame₂).trans hsame₃).trans (hadvanced.sameDone hend.alike hadvanced')⟩
    rw [hend.step, hend.changed, hend.mark]

/-- A solve of the Newton system leads to the same. -/
theorem Alike.solveJob (ha : Alike job e g) (hp : e.problem.Accepted) (hjob : job.Covers e.problem.tree) (hs : e.Sound)
    (hs' : g.Sound) (hsolves : e.Solves) (hok : e.solveJob job = .ok e') (hok' : g.solveJob job = .ok g') :
    e'.Sound ∧ g'.Sound ∧ SameDone e e' g g' := by
  obtain ⟨column, l, d, hcolumns⟩ := hsolves
  have hcolumns' : g.factor.HasColumns g.problem.nrows column l d := by
    rw [ha.factor, ha.problem]
    exact hcolumns
  have hstop := (hp.job_stop hjob).1
  obtain rfl := Except.ok.inj ((hs.solveJob_eq hcolumns hstop).symm.trans hok)
  obtain rfl := Except.ok.inj ((hs'.solveJob_eq hcolumns' (ha.problem ▸ hstop)).symm.trans hok')
  exact ⟨hs.of_solved _ _ _ _, hs'.of_solved _ _ _ _, sameDone_solved hs hs' ha fun j i hi => (hcolumns.lt j i hi).1⟩

/-- The work on a job has the same outcome in states that are alike. -/
theorem Alike.workOn (ha : Alike job e g) (hp : e.problem.Accepted) (hjob : job.Covers e.problem.tree) (hs : e.Sound)
    (hs' : g.Sound) (hsolves : e.Solves) {out? out?' : Option (LineOutcome K)} (hok : e.workOn job = .ok (out?, e'))
    (hok' : g.workOn job = .ok (out?', g')) : out?' = out? ∧ SameDone e e' g g' := by
  have hstop := (hp.job_stop hjob).1
  have hmeets : Schedule.meets g.set.rows job.rows = Schedule.meets e.set.rows job.rows := by
    rw [hs.meets_ok hstop, hs'.meets_ok (ha.problem ▸ hstop), ha.activeBetween_eq]
  rcases of_workOn hok with ⟨hnone, rfl, rfl⟩ | ⟨hsome, timers, timers₁, timers₂, e₁, e₂, out, hsolve, hsearch, rfl, rfl⟩
  · rcases of_workOn hok' with ⟨-, rfl, rfl⟩ | ⟨hsome', -⟩
    · exact ⟨rfl, .refl _ _⟩
    · rw [hmeets, hnone] at hsome'
      cases hsome'
  · rcases of_workOn hok' with ⟨hnone', -⟩ |
      ⟨-, timers', timers₁', timers₂', g₁, g₂, out', hsolve', hsearch', rfl, rfl⟩
    · rw [hmeets, hsome] at hnone'
      cases hnone'
    have hstart : SameDone e { e with stats := { e.stats with jobs := e.stats.jobs + 1 }, timers := timers }
        g { g with stats := { g.stats with jobs := g.stats.jobs + 1 }, timers := timers' } :=
      sameDone_nothing e g e.heap g.heap _ _ timers timers'
    have ha₁ := hstart.alike ha
    obtain ⟨hs₁, hs₁', hsolved⟩ := ha₁.solveJob hp hjob (hs.of_stats _ timers) (hs'.of_stats _ timers') hsolves hsolve hsolve'
    have htimed : SameDone e₁ { e₁ with timers := timers₁ } g₁ { g₁ with timers := timers₁' } :=
      sameDone_nothing e₁ g₁ e₁.heap g₁.heap e₁.stats g₁.stats timers₁ timers₁'
    have ha₂ := htimed.alike (hsolved.alike ha₁)
    have hproblem₁ : e₁.problem = e.problem := by
      obtain ⟨_, _, _, _, rfl⟩ := of_solveJob hsolve
      rfl
    obtain ⟨rfl, hsearched⟩ := ha₂.lineSearch (hproblem₁ ▸ hp) (hproblem₁ ▸ hjob) (hs₁.of_stats _ timers₁).regular
      (hs₁'.of_stats _ timers₁').regular hsearch hsearch'
    have hdone : SameDone e₂ { e₂ with timers := timers₂ } g₂ { g₂ with timers := timers₂' } :=
      sameDone_nothing e₂ g₂ e₂.heap g₂.heap e₂.stats g₂.stats timers₂ timers₂'
    exact ⟨rfl, (((hstart.trans hsolved).trans htimed).trans hsearched).trans hdone⟩

end Engine

end PolyProjection
