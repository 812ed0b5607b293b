import Mathlib
import PolyProjection.Proofs.Engine.Direction

/-! The walk of a line search. Each event lies at the first break value, the step never goes beyond a break
value that is left, and a row is dropped exactly where its multiplier becomes zero. So the multipliers stay on
the sides of their rows. -/

namespace PolyProjection

set_option linter.unusedSectionVars false

variable {K : Type} [Field K] [LinearOrder K] [IsStrictOrderedRing K]

namespace Engine

/-- Two engines that differ at most in what a search works on. -/
def SearchFrame (e e' : Engine K) : Prop :=
  ∃ set lambda dlambda work heap log stats events, e' = { e with
    set := set
    lambda := lambda
    dlambda := dlambda
    work := work
    heap := heap
    log := log
    stats := stats
    events := events }

variable {e e' e'' : Engine K}

theorem SearchFrame.refl (e : Engine K) : e.SearchFrame e :=
  ⟨_, _, _, _, _, _, _, _, rfl⟩

theorem SearchFrame.trans (h : e.SearchFrame e') (h' : e'.SearchFrame e'') : e.SearchFrame e'' := by
  obtain ⟨_, _, _, _, _, _, _, _, rfl⟩ := h
  obtain ⟨_, _, _, _, _, _, _, _, rfl⟩ := h'
  exact ⟨_, _, _, _, _, _, _, _, rfl⟩

theorem SearchFrame.problem (h : e.SearchFrame e') : e'.problem = e.problem := by
  obtain ⟨_, _, _, _, _, _, _, _, rfl⟩ := h
  rfl

theorem SearchFrame.settings (h : e.SearchFrame e') : e'.settings = e.settings := by
  obtain ⟨_, _, _, _, _, _, _, _, rfl⟩ := h
  rfl

end Engine

namespace LineSearch

/-- The search at the break value `next`, with the candidates that are left. -/
def goTo (s : LineSearch K) (heap : BreakHeap K) (next : K) : LineSearch K :=
  { s with
    engine := { s.engine with heap := heap }
    slope := s.slope - s.curvature * (next - s.step)
    step := next }

/-- The search goes on to the first break value, and the event of candidate `id` is carried out there. -/
structure Event (s s' : LineSearch K) (id : Nat) (key : K) : Prop where
  slope_pos : 0 < s.slope
  curvature_pos : 0 < s.curvature
  lt_one : max 0 key < 1
  slope_ahead : 0 < s.slope - s.curvature * (max 0 key - s.step)
  first : s.engine.heap.keyAt id = some key ∧ ∀ c v, s.engine.heap.keyAt c = some v → key ≤ v
  ran : s.engine.heap.peekMin = .ok (some (id, key)) ∧ ∃ removed heap, s.engine.heap.popMin = .ok (removed, heap) ∧
    (s.goTo heap (max 0 key)).commitCandidate id = .ok s'
  commit : ∃ heap s₁, heap.Valid (s.engine.problem.ncols + s.engine.problem.nrows) ∧
    (∀ c, heap.keyAt c = if c = id then none else s.engine.heap.keyAt c) ∧
    (id < s.engine.problem.ncols ∧ ColumnFreed (s.goTo heap (max 0 key)) s₁ id ∨
      s.engine.problem.ncols ≤ id ∧
        ∃ delta, RowDropped (s.goTo heap (max 0 key)) s₁ (id - s.engine.problem.ncols) delta) ∧
    s' = { s₁ with changed := true }

/-- One event after the other. -/
def Walks (s s' : LineSearch K) : Prop :=
  Relation.ReflTransGen (fun s s' => ∃ id key, Event s s' id key) s s'

/-- How a walk ends, and where. -/
inductive Ends (s : LineSearch K) : LineFlag → LineSearch K → Prop where
  | nondifferentiable : s.slope ≤ 0 → Ends s .nondifferentiableOptimum s
  | degenerate : 0 < s.slope → s.curvature ≤ 0 → Ends s .degenerate s
  | interior : 0 < s.slope → 0 < s.curvature →
      (∀ c v, s.engine.heap.keyAt c = some v → s.step + s.slope / s.curvature ≤ max 0 v ∨ 1 ≤ max 0 v) →
      Ends s .interior { s with step := s.step + s.slope / s.curvature }
  | budget : 0 < s.slope → 0 < s.curvature → (∃ c v, s.engine.heap.keyAt c = some v) →
      (∀ c v, s.engine.heap.keyAt c = some v → 1 ≤ max 0 v) → 1 < s.step + s.slope / s.curvature →
      Ends s .budgetReached { s with step := 1 }

variable {s s' : LineSearch K} {id : Nat} {key : K}

theorem Event.regular (he : Event s s' id key) : s'.engine.Regular := by
  obtain ⟨heap, s₁, -, -, hevent, rfl⟩ := he.commit
  rcases hevent with ⟨-, hfreed⟩ | ⟨-, delta, hdropped⟩
  · exact hfreed.regular
  · exact hdropped.regular

/-- The candidates that are left when one is taken out. -/
theorem keyAt_of_left {heap heap' : BreakHeap K} (hkeys : ∀ c, heap'.keyAt c = if c = id then none else heap.keyAt c)
    {c : ℕ} {v : K} (hv : heap'.keyAt c = some v) : c ≠ id ∧ heap.keyAt c = some v := by
  rw [hkeys] at hv
  split_ifs at hv with hid
  exact ⟨hid, hv⟩

/-- The candidate of an event is a column, which is freed, or the row of an index beyond the columns, which is dropped. -/
theorem Event.freed_or_dropped (he : Event s s' id key) : ∃ heap s₁,
    heap.Valid (s.engine.problem.ncols + s.engine.problem.nrows) ∧
    (∀ c, heap.keyAt c = if c = id then none else s.engine.heap.keyAt c) ∧
    (id < s.engine.problem.ncols ∧ ColumnFreed (s.goTo heap (max 0 key)) s₁ id ∨
      ∃ k delta, id = s.engine.problem.ncols + k ∧ RowDropped (s.goTo heap (max 0 key)) s₁ k delta) ∧
    s' = { s₁ with changed := true } := by
  obtain ⟨heap, s₁, hvalid, hkeys, hevent, hs'⟩ := he.commit
  refine ⟨heap, s₁, hvalid, hkeys, hevent.imp_right ?_, hs'⟩
  rintro ⟨hid, delta, hd⟩
  exact ⟨_, delta, (Nat.add_sub_of_le hid).symm, hd⟩

theorem of_commitCandidate (h : s.engine.Regular) (hok : s.commitCandidate id = .ok s') :
    ∃ s₁, (id < s.engine.problem.ncols ∧ ColumnFreed s s₁ id ∨
      s.engine.problem.ncols ≤ id ∧ ∃ delta, RowDropped s s₁ (id - s.engine.problem.ncols) delta) ∧
      s' = { s₁ with changed := true } := by
  unfold commitCandidate at hok
  dsimp only at hok
  split_ifs at hok with hid
  · simp only [bind_eq_ok_iff, pure_eq_ok_iff] at hok
    obtain ⟨s₁, hfree, rfl⟩ := hok
    exact ⟨s₁, .inl ⟨hid, of_freeColumn h hfree⟩, rfl⟩
  · simp only [bind_eq_ok_iff, pure_eq_ok_iff] at hok
    obtain ⟨s₁, hdrop, rfl⟩ := hok
    exact ⟨s₁, .inr ⟨not_lt.1 hid, of_dropRow h hdrop⟩, rfl⟩

/-- The last piece ends before the next break value if the slope is no longer positive there. -/
theorem interior_step {slope curvature gap : K} (hslope : 0 < slope) (hcurvature : 0 < curvature)
    (hle : slope - curvature * gap ≤ 0) :
    slope / (slope - (slope - curvature * gap)) * gap = slope / curvature ∧ slope / curvature ≤ gap := by
  have hgap : 0 < gap := by
    by_contra hneg
    have := mul_nonpos_of_nonneg_of_nonpos hcurvature.le (not_lt.1 hneg)
    linarith
  constructor
  · rw [sub_sub_cancel]
    field_simp
  · rw [div_le_iff₀ hcurvature]
    linarith

/-- One round of the walk ends it or carries out an event. -/
theorem walk_cases (h : s.engine.Regular) (hslope : 0 < s.slope) {events : Nat} {flag : LineFlag}
    (hok : walk (events + 1) s = .ok (flag, s')) : Ends s flag s' ∨ ∃ s₁ id key, Event s s₁ id key ∧
      (s₁.slope ≤ 0 ∧ flag = .nondifferentiableOptimum ∧ s' = s₁ ∨
        0 < s₁.slope ∧ walk events s₁ = .ok (flag, s')) := by
  rw [walk] at hok
  split_ifs at hok with hcurvature
  · rw [pure_eq_ok_iff, Prod.mk.injEq] at hok
    obtain ⟨rfl, rfl⟩ := hok
    exact .inl (.degenerate hslope hcurvature)
  rw [not_le] at hcurvature
  simp only [Scalar.quotient_of_ne_zero hcurvature.ne', ok_bind] at hok
  rw [bind_eq_ok_iff] at hok
  obtain ⟨first, hpeek, hok⟩ := hok
  cases first with
  | none =>
      simp only [pure_eq_ok_iff, Prod.mk.injEq] at hok
      obtain ⟨rfl, rfl⟩ := hok
      refine .inl (.interior hslope hcurvature fun c v hc => ?_)
      rw [h.heap.of_peekMin_none hpeek] at hc
      cases hc
  | some first =>
      obtain ⟨id, key⟩ := first
      obtain ⟨hkey, hmin⟩ := h.heap.of_peekMin hpeek
      have hmax : ∀ c v, s.engine.heap.keyAt c = some v → max 0 key ≤ max 0 v :=
        fun c v hc => max_le_max le_rfl (hmin c v hc)
      simp only [Scalar.max_exact] at hok
      split_ifs at hok with hnext hbudget hahead
      · rw [pure_eq_ok_iff, Prod.mk.injEq] at hok
        obtain ⟨rfl, rfl⟩ := hok
        exact .inl (.budget hslope hcurvature ⟨id, key, hkey⟩ (fun c v hc => hnext.trans (hmax c v hc)) hbudget)
      · rw [pure_eq_ok_iff, Prod.mk.injEq] at hok
        obtain ⟨rfl, rfl⟩ := hok
        exact .inl (.interior hslope hcurvature fun c v hc => .inr (hnext.trans (hmax c v hc)))
      · simp only [bind_eq_ok_iff, Scalar.quotient_eq_ok_iff, pure_eq_ok_iff, Prod.mk.injEq] at hok
        obtain ⟨_, ⟨-, rfl⟩, rfl, rfl⟩ := hok
        obtain ⟨heq, hle⟩ := interior_step hslope hcurvature hahead
        rw [heq]
        refine .inl (.interior hslope hcurvature fun c v hc => .inl ?_)
        have := hmax c v hc
        linarith
      · rw [bind_eq_ok_iff] at hok
        obtain ⟨⟨r, heap⟩, hpop, hok⟩ := hok
        obtain ⟨hvalid, hkeys⟩ := h.heap.of_popMin hpeek hpop
        rw [bind_eq_ok_iff] at hok
        obtain ⟨s₂, hcommit, hok⟩ := hok
        obtain ⟨s₁, hevent, hs₂⟩ := of_commitCandidate (s := s.goTo heap (max 0 key)) (h.of_heap hvalid) hcommit
        refine .inr ⟨s₂, id, key, ⟨hslope, hcurvature, not_le.1 hnext, not_le.1 hahead, ⟨hkey, hmin⟩,
          ⟨hpeek, r, heap, hpop, hcommit⟩, heap, s₁, hvalid, hkeys, hevent, hs₂⟩, ?_⟩
        split_ifs at hok with hdone
        · rw [pure_eq_ok_iff, Prod.mk.injEq] at hok
          exact .inl ⟨hdone, hok.1.symm, hok.2.symm⟩
        · exact .inr ⟨not_le.1 hdone, hok⟩

/-- A walk is a number of events and an end. -/
theorem of_walk (h : s.engine.Regular) (hslope : 0 < s.slope) {events : Nat} {flag : LineFlag}
    (hok : walk events s = .ok (flag, s')) : ∃ s₁, Walks s s₁ ∧ Ends s₁ flag s' := by
  induction events generalizing s with
  | zero => cases hok
  | succ events ih =>
      rcases walk_cases h hslope hok with hends | ⟨s₁, id, key, hevent, hrest⟩
      · exact ⟨s, Relation.ReflTransGen.refl, hends⟩
      · rcases hrest with ⟨hle, rfl, rfl⟩ | ⟨hpos, hwalk⟩
        · exact ⟨s', Relation.ReflTransGen.single ⟨id, key, hevent⟩, .nondifferentiable hle⟩
        · obtain ⟨s₂, hwalks, hends⟩ := ih hevent.regular hpos hwalk
          exact ⟨s₂, Relation.ReflTransGen.head ⟨id, key, hevent⟩ hwalks, hends⟩

/-- What holds between two events of a search over a range of rows that began in the engine `e`. -/
structure Searching (e : Engine K) (rows : IndexRange) (s : LineSearch K) : Prop where
  regular : s.engine.Regular
  feasible : s.engine.DualFeasible
  problem : s.engine.problem = e.problem
  t : s.engine.work.t = e.work.t
  status : ∀ i, s.engine.set.rowAt i = e.set.rowAt i ∨
    s.engine.set.rowAt i = .dropped ∧ (e.set.rowAt i = .atLower ∨ e.set.rowAt i = .atUpper)
  step_nonneg : 0 ≤ s.step
  step_le_one : s.step ≤ 1
  ahead : ∀ c v, s.engine.heap.keyAt c = some v → s.step ≤ max 0 v
  row_key : ∀ i v, s.engine.heap.keyAt (e.problem.ncols + i) = some v → (rows.start ≤ i ∧ i < rows.stop) ∧
    Engine.movesToZero (s.engine.set.rowAt i) (coord e.work.t i) = true ∧ v = max 0 (s.engine.zeroStep i)
  row_far : ∀ i, rows.start ≤ i → i < rows.stop →
    Engine.movesToZero (s.engine.set.rowAt i) (coord e.work.t i) = true →
    s.engine.heap.keyAt (e.problem.ncols + i) = none → 1 ≤ s.engine.zeroStep i

variable {e : Engine K} {rows : IndexRange}

/-- A multiplier on the side of its row becomes zero only later on. -/
theorem zeroStep_nonneg {d : Engine K} {i : Nat} (hside : (d.set.rowAt i).Admits (coord d.lambda i + coord d.dlambda i))
    (hmoves : Engine.movesToZero (d.set.rowAt i) (coord d.work.t i) = true) : 0 ≤ d.zeroStep i := by
  rw [Engine.zeroStep]
  cases hst : d.set.rowAt i with
  | equality => rw [hst] at hmoves; cases hmoves
  | dropped => rw [hst] at hmoves; cases hmoves
  | atLower =>
      rw [hst] at hside hmoves
      have ht : coord d.work.t i < 0 := of_decide_eq_true hmoves
      exact div_nonneg_of_nonpos (neg_nonpos.2 hside) ht.le
  | atUpper =>
      rw [hst] at hside hmoves
      have ht : 0 < coord d.work.t i := of_decide_eq_true hmoves
      exact div_nonneg (neg_nonneg.2 hside) ht.le

theorem ne_zero_of_movesToZero {st : RowStatus} {t : K} (h : Engine.movesToZero st t = true) : t ≠ 0 := by
  rintro rfl
  cases st <;> simp [Engine.movesToZero] at h

theorem inequality_of_movesToZero {st : RowStatus} {t : K} (h : Engine.movesToZero st t = true) :
    st = .atLower ∨ st = .atUpper := by
  cases st <;> simp_all [Engine.movesToZero]

/-- A row is dropped exactly at the step where its multiplier is zero. -/
theorem Searching.zero_at_drop (hs : Searching e rows s) {k : Nat} {v : K}
    (hkey : s.engine.heap.keyAt (e.problem.ncols + k) = some v) :
    coord s.engine.lambda k + coord s.engine.dlambda k + max 0 v * coord s.engine.work.t k = 0 := by
  obtain ⟨-, hmoves, rfl⟩ := hs.row_key k v hkey
  have ht := ne_zero_of_movesToZero hmoves
  rw [← hs.t] at hmoves ht
  rw [max_eq_right (le_max_left _ _), max_eq_right (zeroStep_nonneg (hs.feasible.on_side k) hmoves), Engine.zeroStep,
    div_mul_cancel₀ _ ht]
  ring

theorem ColumnFreed.zeroStep {j : ℕ} (hf : ColumnFreed s s' j) (i : ℕ) :
    s'.engine.zeroStep i = s.engine.zeroStep i := by
  rw [Engine.zeroStep, Engine.zeroStep, hf.lambda, hf.dlambda, hf.t]

theorem RowDropped.zeroStep {k : ℕ} {delta : K} (hd : RowDropped s s' k delta) {i : ℕ} (hi : i ≠ k) :
    s'.engine.zeroStep i = s.engine.zeroStep i := by
  rw [Engine.zeroStep, Engine.zeroStep, hd.lambda, hd.dlambda, hd.t, if_neg hi, if_neg hi]

theorem RowDropped.dualFeasible {k : ℕ} {delta : K} (hd : RowDropped s s' k delta) (hr : s.engine.Regular)
    (h : s.engine.DualFeasible) : s'.engine.DualFeasible := by
  refine ⟨fun i hi => ?_, fun i => ?_⟩
  · rw [hd.rowAt hr] at hi
    rw [hd.lambda, hd.dlambda]
    split_ifs at hi ⊢
    · exact ⟨rfl, rfl⟩
    · exact h.dropped i hi
  · rw [hd.rowAt hr, hd.lambda, hd.dlambda]
    split_ifs
    · exact add_zero 0
    · exact h.on_side i

section Event

variable {heap : BreakHeap K} {s₁ : LineSearch K} {k : ℕ} {delta : K} (hs : Searching e rows s) (hlt : max 0 key < 1)
  (hkeys : ∀ c, heap.keyAt c = if c = id then none else s.engine.heap.keyAt c)
  (hahead : ∀ c v, heap.keyAt c = some v → max 0 key ≤ max 0 v)

include hs hlt hkeys hahead

/-- A freed column leaves the rows and their break values as they were. -/
theorem Searching.of_columnFreed (hid : id < s.engine.problem.ncols)
    (hf : ColumnFreed (s.goTo heap (max 0 key)) s₁ id) : Searching e rows s₁ := by
  have hrow : ∀ i, s₁.engine.set.rowAt i = s.engine.set.rowAt i := hf.rowAt
  have hheap : s₁.engine.heap = heap := hf.heap
  have hstep : s₁.step = max 0 key := hf.step
  have hzero : ∀ i, s₁.engine.zeroStep i = s.engine.zeroStep i := hf.zeroStep
  have hrowKey : ∀ i, s₁.engine.heap.keyAt (e.problem.ncols + i) = s.engine.heap.keyAt (e.problem.ncols + i) :=
    fun i => by rw [hheap, hkeys, if_neg (by rw [← hs.problem]; omega)]
  refine ⟨hf.regular, hs.feasible.of_eq hrow hf.lambda hf.dlambda, hf.problem.trans hs.problem, hf.t.trans hs.t, ?_, ?_,
    ?_, ?_, ?_, ?_⟩
  · simpa only [hrow] using hs.status
  · rw [hstep]
    exact le_max_left ..
  · rw [hstep]
    exact hlt.le
  · rw [hheap, hstep]
    exact hahead
  · intro i v hc
    rw [hrowKey] at hc
    rw [hrow, hzero]
    exact hs.row_key i v hc
  · intro i hi hi' hmoves hnone
    rw [hrowKey] at hnone
    rw [hrow] at hmoves
    rw [hzero]
    exact hs.row_far i hi hi' hmoves hnone

/-- A row that has been an inequality on the side of its multiplier is dropped with a multiplier of zero. The columns
that it meets get break values beyond the step. -/
theorem Searching.of_rowDropped (hr : (s.goTo heap (max 0 key)).engine.Regular) (hid : id = s.engine.problem.ncols + k)
    (hkey : s.engine.heap.keyAt id = some key) (hd : RowDropped (s.goTo heap (max 0 key)) s₁ k delta) :
    Searching e rows s₁ := by
  rw [hid, hs.problem] at hkey
  have hmoves := (hs.row_key k key hkey).2.1
  have hrow : ∀ i, s₁.engine.set.rowAt i = if i = k then .dropped else s.engine.set.rowAt i := hd.rowAt hr
  have hstep : s₁.step = max 0 key := hd.step
  have hzero : ∀ i, i ≠ k → s₁.engine.zeroStep i = s.engine.zeroStep i := fun i => hd.zeroStep
  have hrowKey : ∀ i, s₁.engine.heap.keyAt (e.problem.ncols + i) =
      if i = k then none else s.engine.heap.keyAt (e.problem.ncols + i) := fun i => by
    rw [← hs.problem]
    refine (hd.keyAt_row hr i).trans ?_
    change heap.keyAt (s.engine.problem.ncols + i) = _
    rw [hkeys, hid]
    simp only [Nat.add_left_cancel_iff]
  have hfeasible : s₁.engine.DualFeasible :=
    hd.dualFeasible hr ⟨hs.feasible.dropped, hs.feasible.on_side⟩
  refine ⟨hd.regular, hfeasible, hd.problem.trans hs.problem, hd.t.trans hs.t, fun i => ?_, ?_, ?_, ?_, ?_, ?_⟩
  · rw [hrow]
    split_ifs with hi
    · rw [hi]
      rcases hs.status k with heq | ⟨hdrop, -⟩
      · exact .inr ⟨rfl, heq ▸ inequality_of_movesToZero hmoves⟩
      · rw [hdrop] at hmoves
        cases hmoves
    · exact hs.status i
  · rw [hstep]
    exact le_max_left ..
  · rw [hstep]
    exact hlt.le
  · intro c v hc
    rw [hstep]
    rcases hd.ahead hc with hc | hle
    · exact hahead c v hc
    · exact hle.trans (le_max_right _ _)
  · intro i v hc
    rw [hrowKey] at hc
    split_ifs at hc with hi
    rw [hrow, if_neg hi, hzero i hi]
    exact hs.row_key i v hc
  · intro i hi hi' hmoves hnone
    rw [hrow] at hmoves
    split_ifs at hmoves with hik
    · cases hmoves
    · rw [hrowKey, if_neg hik] at hnone
      rw [hzero i hik]
      exact hs.row_far i hi hi' hmoves hnone

end Event

theorem Searching.event (hs : Searching e rows s) (he : Event s s' id key) : Searching e rows s' := by
  obtain ⟨heap, s₁, hvalid, hkeys, hevent, rfl⟩ := he.freed_or_dropped
  have hahead : ∀ c v, heap.keyAt c = some v → max 0 key ≤ max 0 v := fun c v hc =>
    max_le_max le_rfl (he.first.2 c v (keyAt_of_left hkeys hc).2)
  have hs₁ : Searching e rows s₁ := by
    rcases hevent with ⟨hid, hf⟩ | ⟨k, delta, hid, hd⟩
    · exact hs.of_columnFreed he.lt_one hkeys hahead hid hf
    · exact hs.of_rowDropped he.lt_one hkeys hahead (hs.regular.of_heap hvalid) hid he.first.1 hd
  exact { hs₁ with }

theorem Searching.walks (hs : Searching e rows s) (hw : Walks s s') : Searching e rows s' := by
  induction hw with
  | refl => exact hs
  | tail _ hstep ih =>
      obtain ⟨id, key, hevent⟩ := hstep
      exact ih.event hevent

/-- A multiplier that moves towards zero is on its side until it is there. -/
theorem admits_until {d : Engine K} {i : ℕ} {step : K}
    (hmoves : Engine.movesToZero (d.set.rowAt i) (coord d.work.t i) = true) (hstep : step ≤ d.zeroStep i) :
    (d.set.rowAt i).Admits (coord d.lambda i + coord d.dlambda i + step * coord d.work.t i) := by
  rw [Engine.zeroStep] at hstep
  cases hst : d.set.rowAt i with
  | equality => trivial
  | dropped => rw [hst] at hmoves; cases hmoves
  | atLower =>
      rw [hst] at hmoves
      have ht : coord d.work.t i < 0 := of_decide_eq_true hmoves
      rw [le_div_iff_of_neg ht] at hstep
      simp only [RowStatus.Admits]
      linarith
  | atUpper =>
      rw [hst] at hmoves
      have ht : 0 < coord d.work.t i := of_decide_eq_true hmoves
      rw [le_div_iff₀ ht] at hstep
      simp only [RowStatus.Admits]
      linarith

/-- A multiplier that does not move towards zero stays on its side. -/
theorem admits_later {st : RowStatus} {value t step : K} (hact : st.isActive = true)
    (hmoves : Engine.movesToZero st t = false) (hnonneg : 0 ≤ step) (hside : st.Admits value) :
    st.Admits (value + step * t) := by
  cases st with
  | equality => trivial
  | dropped => cases hact
  | atLower =>
      simp only [Engine.movesToZero, decide_eq_false_iff_not, not_lt] at hmoves
      simp only [RowStatus.Admits] at hside ⊢
      have := mul_nonneg hnonneg hmoves
      linarith
  | atUpper =>
      simp only [Engine.movesToZero, decide_eq_false_iff_not, not_lt] at hmoves
      simp only [RowStatus.Admits] at hside ⊢
      have := mul_nonpos_of_nonneg_of_nonpos hnonneg hmoves
      linarith

/-- Nowhere between the last event and the end does a multiplier leave the side of its row. -/
theorem Searching.on_side (hs : Searching e rows s) {step : K} (hnonneg : 0 ≤ step) (hle : step ≤ 1)
    (hahead : ∀ c v, s.engine.heap.keyAt c = some v → step ≤ max 0 v) (i : Nat) :
    (s.engine.set.rowAt i).Admits
      (coord s.engine.lambda i + coord s.engine.dlambda i + step * s.engine.directionAt rows i) := by
  have hside := hs.feasible.on_side i
  rw [Engine.directionAt]
  split_ifs with hin
  · obtain ⟨hi, hi', hact⟩ := hin
    by_cases hmoves : Engine.movesToZero (s.engine.set.rowAt i) (coord s.engine.work.t i) = true
    · refine admits_until hmoves ?_
      have hz := zeroStep_nonneg hside hmoves
      rw [hs.t] at hmoves
      cases hkey : s.engine.heap.keyAt (e.problem.ncols + i) with
      | none => exact hle.trans (hs.row_far i hi hi' hmoves hkey)
      | some v =>
          have hv := (hs.row_key i v hkey).2.2
          have := hahead _ v hkey
          rwa [hv, max_eq_right (le_max_left _ _), max_eq_right hz] at this
    · exact admits_later hact (eq_false_of_ne_true hmoves) hnonneg hside
  · rw [mul_zero, add_zero]
    exact hside

/-- The step at the end of a walk, which the full step may cut short. -/
theorem Searching.ends (hs : Searching e rows s) {flag : LineFlag} (he : Ends s flag s') :
    s'.engine = s.engine ∧ s'.changed = s.changed ∧ s'.mark = s.mark ∧ 0 ≤ s'.step ∧
      ∀ c v, s.engine.heap.keyAt c = some v → min 1 s'.step ≤ max 0 v := by
  cases he with
  | nondifferentiable _ =>
      exact ⟨rfl, rfl, rfl, hs.step_nonneg, fun c v hc => (min_le_right _ _).trans (hs.ahead c v hc)⟩
  | degenerate _ _ =>
      exact ⟨rfl, rfl, rfl, hs.step_nonneg, fun c v hc => (min_le_right _ _).trans (hs.ahead c v hc)⟩
  | interior hslope hcurvature hkeys =>
      refine ⟨rfl, rfl, rfl, add_nonneg hs.step_nonneg (div_pos hslope hcurvature).le, fun c v hc => ?_⟩
      rcases hkeys c v hc with hle | hle
      · exact (min_le_right _ _).trans hle
      · exact (min_le_left _ _).trans hle
  | budget _ _ _ hkeys _ =>
      exact ⟨rfl, rfl, rfl, zero_le_one, fun c v hc => (min_le_left _ _).trans (hkeys c v hc)⟩

/-- What a search goes through before its last step: the full step if there are no candidates, else a walk. -/
inductive Finishes (s : LineSearch K) : LineFlag → LineSearch K → Prop where
  | full : (∀ c, s.engine.heap.keyAt c = none) → Finishes s .interior { s with step := 1 }
  | walk {s₁ s' : LineSearch K} {flag : LineFlag} : Walks s s₁ → Ends s₁ flag s' → Finishes s flag s'

theorem Event.frame (he : Event s s' id key) : s.engine.SearchFrame s'.engine := by
  obtain ⟨heap, s₁, -, -, hevent, rfl⟩ := he.commit
  rcases hevent with ⟨-, hfreed⟩ | ⟨-, delta, hdropped⟩
  · rw [hfreed.form]
    exact ⟨_, _, _, _, _, _, _, _, rfl⟩
  · rw [hdropped.form]
    exact ⟨_, _, _, _, _, _, _, _, rfl⟩

theorem Walks.frame (hw : Walks s s') : s.engine.SearchFrame s'.engine := by
  induction hw with
  | refl => exact Engine.SearchFrame.refl _
  | tail _ hstep ih =>
      obtain ⟨id, key, hevent⟩ := hstep
      exact ih.trans hevent.frame

theorem Walks.regular (hw : Walks s s') (h : s.engine.Regular) : s'.engine.Regular := by
  induction hw with
  | refl => exact h
  | tail _ hstep _ =>
      obtain ⟨id, key, hevent⟩ := hstep
      exact hevent.regular

theorem Ends.engine {flag : LineFlag} (he : Ends s flag s') : s'.engine = s.engine := by
  cases he <;> rfl

theorem Finishes.frame {flag : LineFlag} (hf : Finishes s flag s') : s.engine.SearchFrame s'.engine := by
  cases hf with
  | full _ => exact Engine.SearchFrame.refl _
  | walk hw he =>
      rw [he.engine]
      exact hw.frame

theorem Finishes.regular {flag : LineFlag} (hf : Finishes s flag s') (h : s.engine.Regular) :
    s'.engine.Regular := by
  cases hf with
  | full _ => exact h
  | walk hw he =>
      rw [he.engine]
      exact hw.regular h

/-- The course of a search from its start: the full step if there are no candidates, else a walk. -/
def finish (s : LineSearch K) : Checked (LineFlag × LineSearch K) :=
  if s.engine.heap.size == 0 then pure (.interior, { s with step := 1 })
  else walk (s.engine.problem.ncols + s.engine.problem.nrows + 1) s

theorem finishes_of_finish (h : s.engine.Regular) (hslope : 0 < s.slope) {flag : LineFlag}
    (hok : s.finish = .ok (flag, s')) : Finishes s flag s' := by
  unfold finish at hok
  split_ifs at hok with hempty
  · rw [pure_eq_ok_iff, Prod.mk.injEq] at hok
    obtain ⟨rfl, rfl⟩ := hok
    exact .full (h.heap.size_eq_zero_iff.1 (beq_iff_eq.1 hempty))
  · obtain ⟨s₁, hwalks, hends⟩ := of_walk h hslope hok
    exact .walk hwalks hends

end LineSearch

namespace Engine

/-- The outcome of a line search. -/
inductive Searched (e : Engine K) (rows cols : IndexRange) : LineOutcome K → Engine K → Prop where
  | flat {e₁ : Engine K} : e.HasDirections rows cols e₁ → e₁.slopeAt rows cols ≤ 0 →
      Searched e rows cols ⟨.interior, 0, false, none⟩ e₁
  | moved {e₁ e₂ e' : Engine K} {s : LineSearch K} {flag : LineFlag} : e.HasDirections rows cols e₁ →
      0 < e₁.slopeAt rows cols → e₁.HasCandidates rows cols e₂ →
      LineSearch.Finishes ⟨e₂, 0, e₁.slopeAt rows cols, e₁.curvatureAt rows cols, false, none⟩ flag s →
      s.engine.HasAdvanced rows cols (min 1 s.step) e' →
      Searched e rows cols ⟨if 1 < s.step then .truncated else flag, min 1 s.step, s.changed,
        if s.changed then s.mark else none⟩ e'

/-- The state at the start of the walk of a search. -/
def Starts (e : Engine K) (rows cols : IndexRange) (s : LineSearch K) : Prop :=
  ∃ e₁, e.setDirections rows cols = .ok e₁ ∧ e₁.startSlope rows cols = .ok (s.slope, s.curvature) ∧ 0 < s.slope ∧
    e₁.setCandidates rows cols = .ok s.engine ∧ s.step = 0 ∧ s.changed = false ∧ s.mark = none

/-- The states between two events of the walk of a search. -/
def Passes (e : Engine K) (rows cols : IndexRange) (s : LineSearch K) : Prop :=
  ∃ s₀, e.Starts rows cols s₀ ∧ LineSearch.Walks s₀ s

variable {e e' : Engine K} {rows cols : IndexRange} {out : LineOutcome K}

theorem HasDirections.regular (hd : e.HasDirections rows cols e') (h : e.Regular) : e'.Regular := by
  obtain ⟨pa, rfl, -⟩ := hd
  exact h.of_work _

theorem HasCandidates.regular (hc : e.HasCandidates rows cols e') (h : e.Regular) : e'.Regular := by
  obtain ⟨heap, rfl, hheap, -⟩ := hc
  exact h.of_heap hheap

/-- What the vectors and the candidates are at the start of the walk. -/
theorem Starts.spec {s : LineSearch K} (hs : e.Starts rows cols s) (h : e.Regular)
    (hstop : rows.stop ≤ e.problem.nrows) : ∃ e₁ e₂, e.HasDirections rows cols e₁ ∧ 0 < e₁.slopeAt rows cols ∧
      e₁.HasCandidates rows cols e₂ ∧ s = ⟨e₂, 0, e₁.slopeAt rows cols, e₁.curvatureAt rows cols, false, none⟩ := by
  obtain ⟨e₁, hdirections, hstart, hpos, hcandidates, hstep, hchanged, hmark⟩ := hs
  have hd := h.of_setDirections hdirections
  have h₁ := hd.regular h
  have hproblem : e₁.problem = e.problem := by
    obtain ⟨pa, rfl, -⟩ := hd
    rfl
  obtain ⟨hslope, hcurvature⟩ := h₁.of_startSlope (hproblem ▸ hstop) hstart
  have hc := h₁.of_setCandidates (hproblem ▸ hstop) hcandidates
  refine ⟨e₁, s.engine, hd, hslope ▸ hpos, hc, ?_⟩
  obtain ⟨engine, step, slope, curvature, changed, mark⟩ := s
  dsimp only at hstep hslope hcurvature hchanged hmark ⊢
  rw [hstep, hslope, hcurvature, hchanged, hmark]

/-- The last step is not longer than the full one. -/
theorem Regular.of_advance (h : e.Regular) (hstop : rows.stop ≤ e.problem.nrows) {flag : LineFlag}
    {s : LineSearch K} (hengine : s.engine = e) (hok : (do
      let (flag, step) := if 1 < s.step then (LineFlag.truncated, 1) else (flag, s.step)
      let e ← s.engine.advanceBy rows cols step
      return ((⟨flag, step, s.changed, if s.changed then s.mark else none⟩ : LineOutcome K), e)) =
        .ok (out, e')) : e.HasAdvanced rows cols (min 1 s.step) e' ∧
      out = ⟨if 1 < s.step then .truncated else flag, min 1 s.step, s.changed, if s.changed then s.mark else none⟩ := by
  subst hengine
  by_cases hlong : 1 < s.step
  · simp only [if_pos hlong, bind_eq_ok_iff, pure_eq_ok_iff, Prod.mk.injEq] at hok
    obtain ⟨e₁, hadvance, rfl, rfl⟩ := hok
    rw [if_pos hlong, min_eq_left hlong.le]
    exact ⟨h.of_advanceBy hstop hadvance, rfl⟩
  · simp only [if_neg hlong, bind_eq_ok_iff, pure_eq_ok_iff, Prod.mk.injEq] at hok
    obtain ⟨e₁, hadvance, rfl, rfl⟩ := hok
    rw [if_neg hlong, min_eq_right (not_lt.1 hlong)]
    exact ⟨h.of_advanceBy hstop hadvance, rfl⟩

/-- A search along a direction that does not ascend ends at once; any other one sets its candidates, takes its course and
advances by the step. -/
theorem Regular.lineSearch_finish (h : e.Regular) (hstop : rows.stop ≤ e.problem.nrows)
    (hok : e.lineSearch rows cols = .ok (out, e')) :
    (e.HasDirections rows cols e' ∧ e'.slopeAt rows cols ≤ 0 ∧ out = ⟨.interior, 0, false, none⟩) ∨
    ∃ s₀ s flag, e.Starts rows cols s₀ ∧ s₀.finish = .ok (flag, s) ∧ s.engine.HasAdvanced rows cols (min 1 s.step) e' ∧
      out = ⟨if 1 < s.step then .truncated else flag, min 1 s.step, s.changed, if s.changed then s.mark else none⟩ := by
  unfold lineSearch at hok
  rw [bind_eq_ok_iff] at hok
  obtain ⟨e₁, hdirections, hok⟩ := hok
  have hd := h.of_setDirections hdirections
  have h₁ := hd.regular h
  have hprob₁ : e₁.problem = e.problem := by
    obtain ⟨pa, rfl, -⟩ := hd
    rfl
  rw [bind_eq_ok_iff] at hok
  obtain ⟨⟨slope, curvature⟩, hstart, hok⟩ := hok
  dsimp only at hok
  split_ifs at hok with hflat
  · rw [pure_eq_ok_iff, Prod.mk.injEq] at hok
    obtain ⟨rfl, rfl⟩ := hok
    obtain ⟨rfl, rfl⟩ := h₁.of_startSlope (hprob₁ ▸ hstop) hstart
    exact .inl ⟨hd, hflat, rfl⟩
  rw [bind_eq_ok_iff] at hok
  obtain ⟨e₂, hcandidates, hok⟩ := hok
  have hstarts : e.Starts rows cols ⟨e₂, 0, slope, curvature, false, none⟩ :=
    ⟨e₁, hdirections, hstart, not_le.1 hflat, hcandidates, rfl, rfl, rfl⟩
  have hc := h₁.of_setCandidates (hprob₁ ▸ hstop) hcandidates
  have h₂ := hc.regular h₁
  have hprob₂ : e₂.problem = e.problem := by
    obtain ⟨heap, rfl, -⟩ := hc
    exact hprob₁
  split_ifs at hok with hempty
  · rw [pure_bind_ok] at hok
    obtain ⟨hadvanced, rfl⟩ := h₂.of_advance (hprob₂ ▸ hstop) rfl hok
    exact .inr ⟨_, _, _, hstarts, if_pos hempty, hadvanced, rfl⟩
  · rw [bind_eq_ok_iff] at hok
    obtain ⟨⟨flag, s⟩, hwalk, hok⟩ := hok
    have hfinish : LineSearch.finish ⟨e₂, 0, slope, curvature, false, none⟩ = .ok (flag, s) :=
      (if_neg hempty).trans hwalk
    have hfinishes := LineSearch.finishes_of_finish h₂ (not_le.1 hflat) hfinish
    have hprob₃ := hfinishes.frame.problem
    obtain ⟨hadvanced, rfl⟩ := (hfinishes.regular h₂).of_advance (by
      rw [hprob₃, hprob₂]
      exact hstop) rfl hok
    exact .inr ⟨_, s, flag, hstarts, hfinish, hadvanced, rfl⟩

theorem Regular.lineSearch_cases (h : e.Regular) (hstop : rows.stop ≤ e.problem.nrows)
    (hok : e.lineSearch rows cols = .ok (out, e')) :
    (e.HasDirections rows cols e' ∧ e'.slopeAt rows cols ≤ 0 ∧ out = ⟨.interior, 0, false, none⟩) ∨
    ∃ s₀ s flag, e.Starts rows cols s₀ ∧ LineSearch.Finishes s₀ flag s ∧
      s.engine.HasAdvanced rows cols (min 1 s.step) e' ∧
      out = ⟨if 1 < s.step then .truncated else flag, min 1 s.step, s.changed, if s.changed then s.mark else none⟩ := by
  refine (h.lineSearch_finish hstop hok).imp_right ?_
  rintro ⟨s₀, s, flag, hstarts, hfinish, hadvanced, hout⟩
  have hslope : 0 < s₀.slope := by
    obtain ⟨_, -, -, hpos, -⟩ := hstarts
    exact hpos
  have hregular : s₀.engine.Regular := by
    obtain ⟨_, _, hd, -, hc, rfl⟩ := hstarts.spec h hstop
    exact hc.regular (hd.regular h)
  exact ⟨s₀, s, flag, hstarts, LineSearch.finishes_of_finish hregular hslope hfinish, hadvanced, hout⟩

theorem Regular.of_lineSearch (h : e.Regular) (hstop : rows.stop ≤ e.problem.nrows)
    (hok : e.lineSearch rows cols = .ok (out, e')) : e.Searched rows cols out e' := by
  rcases h.lineSearch_cases hstop hok with ⟨hd, hflat, rfl⟩ | ⟨s₀, s, flag, hstarts, hfinishes, hadvanced, rfl⟩
  · exact .flat hd hflat
  · obtain ⟨e₁, e₂, hd, hslope, hc, rfl⟩ := hstarts.spec h hstop
    exact .moved hd hslope hc hfinishes hadvanced

/-- The invariant of the search holds at its start. -/
theorem HasCandidates.searching (hc : e.HasCandidates rows cols e') (h : e.Regular) (hf : e.DualFeasible)
    {s c : K} : LineSearch.Searching e rows ⟨e', 0, s, c, false, none⟩ := by
  have h' := hc.regular h
  obtain ⟨heap, rfl, -, -, hrows⟩ := hc
  refine ⟨h', hf.of_eq (fun _ => rfl) rfl rfl, rfl, rfl, fun _ => .inl rfl, le_rfl, zero_le_one, fun c v _ =>
    le_max_left .., ?_, ?_⟩
  · intro i v hkey
    rw [hrows, rowBreak?] at hkey
    split_ifs at hkey with hin hbreak
    rw [Option.some.injEq] at hkey
    exact ⟨⟨hin.1, hin.2.1⟩, hbreak.1, hkey.symm⟩
  · intro i hi hi' hmoves hnone
    have hact : (e.set.rowAt i).isActive = true := by
      rcases LineSearch.inequality_of_movesToZero hmoves with hst | hst
      · have hst : e.set.rowAt i = .atLower := hst
        rw [hst]
        rfl
      · have hst : e.set.rowAt i = .atUpper := hst
        rw [hst]
        rfl
    rw [hrows, if_pos ⟨hi, hi', hact⟩, rowBreak?] at hnone
    split_ifs at hnone with hbreak
    exact not_lt.1 fun hlt => hbreak ⟨hmoves, hlt⟩

theorem Searched.frame (hs : e.Searched rows cols out e') : e.SearchFrame e' := by
  cases hs with
  | flat hd _ =>
      obtain ⟨pa, rfl, -⟩ := hd
      exact ⟨_, _, _, _, _, _, _, _, rfl⟩
  | moved hd _ hc hfinishes hadvanced =>
      have hframe := hfinishes.frame
      obtain ⟨heap, rfl, -⟩ := hc
      obtain ⟨pa, rfl, -⟩ := hd
      obtain ⟨dlambda, c, rfl, -⟩ := hadvanced
      obtain ⟨_, _, _, _, _, _, _, _, heq⟩ := hframe
      rw [heq]
      exact ⟨_, _, _, _, _, _, _, _, rfl⟩

theorem HasAdvanced.regular {step : K} (ha : e.HasAdvanced rows cols step e') (h : e.Regular) : e'.Regular := by
  obtain ⟨dlambda, c, rfl, hsize, -⟩ := ha
  exact ⟨h.problem, h.set, h.rows_fit, h.cols_fit, h.heap, h.size_lambda, hsize.trans h.size_dlambda⟩

theorem Searched.regular (hs : e.Searched rows cols out e') (h : e.Regular) : e'.Regular := by
  cases hs with
  | flat hd _ => exact hd.regular h
  | moved hd _ hc hfinishes hadvanced => exact hadvanced.regular (hfinishes.regular (hc.regular (hd.regular h)))

/-- A search leaves the multipliers on the sides of their rows, and only inequality rows are dropped. -/
theorem Searched.feasible (hs : e.Searched rows cols out e') (h : e.Regular) (hf : e.DualFeasible) :
    e'.Regular ∧ e'.DualFeasible ∧ e'.problem = e.problem ∧ ∀ i, e'.set.rowAt i = e.set.rowAt i ∨
      e'.set.rowAt i = .dropped ∧ (e.set.rowAt i = .atLower ∨ e.set.rowAt i = .atUpper) := by
  cases hs with
  | flat hd _ =>
      have h₁ := hd.regular h
      obtain ⟨pa, rfl, -⟩ := hd
      exact ⟨h₁, hf.of_eq (fun _ => rfl) rfl rfl, rfl, fun _ => .inl rfl⟩
  | moved hd hslope hc hfinishes hadvanced =>
      rename_i e₁ e₂ s flag
      have h₁ := hd.regular h
      have hf₁ : e₁.DualFeasible ∧ e₁.problem = e.problem ∧ e₁.set = e.set := by
        obtain ⟨pa, rfl, -⟩ := hd
        exact ⟨hf.of_eq (fun _ => rfl) rfl rfl, rfl, rfl⟩
      have hstart := hc.searching h₁ hf₁.1 (s := e₁.slopeAt rows cols) (c := e₁.curvatureAt rows cols)
      have hend : ∃ s₁, LineSearch.Searching e₁ rows s₁ ∧ s.engine = s₁.engine ∧ 0 ≤ s.step ∧
          ∀ c v, s₁.engine.heap.keyAt c = some v → min 1 s.step ≤ max 0 v := by
        cases hfinishes with
        | full hempty =>
            refine ⟨_, hstart, rfl, zero_le_one, fun c v hc => ?_⟩
            rw [hempty] at hc
            cases hc
        | walk hwalks hends =>
            have hs₁ := hstart.walks hwalks
            obtain ⟨hengine, -, -, hnonneg, hahead⟩ := hs₁.ends hends
            exact ⟨_, hs₁, hengine, hnonneg, hahead⟩
      obtain ⟨s₁, hs₁, hengine, hnonneg, hahead⟩ := hend
      rw [hengine] at hadvanced
      obtain ⟨dlambda, c, rfl, hsize, hdlambda, -⟩ := hadvanced
      refine ⟨⟨hs₁.regular.problem, hs₁.regular.set, hs₁.regular.rows_fit, hs₁.regular.cols_fit, hs₁.regular.heap,
          hs₁.regular.size_lambda, hsize.trans hs₁.regular.size_dlambda⟩,
        ⟨fun i hi => ?_, fun i => ?_⟩, hs₁.problem.trans hf₁.2.1, fun i => ?_⟩
      · have hi : s₁.engine.set.rowAt i = .dropped := hi
        have hzero := hs₁.feasible.dropped i hi
        rw [hdlambda, hzero.1, hzero.2, directionAt, if_neg fun hin => by rw [hi] at hin; cases hin.2.2]
        simp
      · rw [hdlambda, ← add_assoc]
        exact hs₁.on_side (le_min zero_le_one hnonneg) (min_le_left _ _) hahead i
      · rw [← hf₁.2.2]
        exact hs₁.status i

end Engine

end PolyProjection
