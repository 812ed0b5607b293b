import Mathlib
import PolyProjection.Proofs.Projection.Solve

/-! Two projections of the same data agree, whatever blocks the rows and columns are in and however the rounds go.
Each of the two points is nearly as near as any other, and the squared distance is strictly convex, so the points
are apart by no more than the tolerances allow. -/

namespace PolyProjection

set_option linter.unusedSectionVars false

variable {K : Type} [Field K] [LinearOrder K] [IsStrictOrderedRing K] {σ₁ σ₂ : Type}

namespace Problem

/-- Two problems that differ at most in the blocks of their rows and columns. -/
structure SameData (p q : Problem K) : Prop where
  a : q.a = p.a
  bl : q.bl = p.bl
  bu : q.bu = p.bu
  lo : q.lo = p.lo
  hi : q.hi = p.hi
  y : q.y = p.y

variable {p q : Problem K} {tol : K} {x lambda : Nat → K}

theorem SameData.symm (h : p.SameData q) : q.SameData p :=
  ⟨h.a.symm, h.bl.symm, h.bu.symm, h.lo.symm, h.hi.symm, h.y.symm⟩

theorem SameData.nrows (h : p.SameData q) : q.nrows = p.nrows := by
  rw [Problem.nrows, Problem.nrows, h.a]

theorem SameData.ncols (h : p.SameData q) : q.ncols = p.ncols := by
  rw [Problem.ncols, Problem.ncols, h.a]

theorem SameData.rowValue (h : p.SameData q) (i : Nat) : q.rowValue i x = p.rowValue i x := by
  rw [Problem.rowValue, Problem.rowValue, h.ncols, h.a]

theorem SameData.pointAt (h : p.SameData q) (j : Nat) : q.pointAt lambda j = p.pointAt lambda j := by
  rw [Problem.pointAt, Problem.pointAt, columnValue, columnValue, loAt, loAt, hiAt, hiAt, h.nrows, h.a, h.lo, h.hi, h.y]

theorem SameData.rowWithin (h : p.SameData q) {i : Nat} (hx : p.RowWithin tol i x) : q.RowWithin tol i x := by
  rwa [RowWithin, blAt, buAt, h.bl, h.bu, h.rowValue]

/-- The nearest point within the bounds of a column is within them. -/
theorem WellPosed.pointAt_within (h : p.WellPosed) (lambda : Nat → K) {j : Nat} (hj : j < p.ncols) :
    (p.loAt j).IsBelow (p.pointAt lambda j) ∧ (p.hiAt j).IsAbove (p.pointAt lambda j) :=
  Bound.clamp_within _ (h.col_interval j hj)

/-- The points of two lists of multipliers are no further apart than the multipliers drive them. -/
theorem WellPosed.sum_sq_le (h : p.WellPosed) (l₁ l₂ : Nat → K) :
    ∑ j ∈ Finset.range p.ncols, (p.pointAt l₁ j - p.pointAt l₂ j) ^ 2 ≤
      ∑ i ∈ Finset.range p.nrows, (l₁ i - l₂ i) * p.rowValue i fun j => p.pointAt l₁ j - p.pointAt l₂ j := by
  -- each point makes an obtuse angle with the other one, seen from its own multipliers
  have hobtuse : ∀ l l' : Nat → K, 0 ≤ ∑ j ∈ Finset.range p.ncols,
      (p.pointAt l' j - p.pointAt l j) * (p.pointAt l j - p.columnValue j l) := fun l l' =>
    Finset.sum_nonneg fun j hj =>
      have hin := h.pointAt_within l' (Finset.mem_range.1 hj)
      Bound.clamp_obtuse _ hin.1 hin.2
  have hrows : ∀ l : Nat → K, ∑ j ∈ Finset.range p.ncols, (p.pointAt l₁ j - p.pointAt l₂ j) *
      (p.columnValue j l - coord p.y j) =
        ∑ i ∈ Finset.range p.nrows, l i * p.rowValue i fun j => p.pointAt l₁ j - p.pointAt l₂ j :=
    fun l => Engine.sum_columnValue p l _
  have hsplit : (∑ j ∈ Finset.range p.ncols, (p.pointAt l₂ j - p.pointAt l₁ j) *
        (p.pointAt l₁ j - p.columnValue j l₁)) +
      (∑ j ∈ Finset.range p.ncols, (p.pointAt l₁ j - p.pointAt l₂ j) * (p.pointAt l₂ j - p.columnValue j l₂)) =
      (∑ j ∈ Finset.range p.ncols, (p.pointAt l₁ j - p.pointAt l₂ j) * (p.columnValue j l₁ - coord p.y j)) -
      (∑ j ∈ Finset.range p.ncols, (p.pointAt l₁ j - p.pointAt l₂ j) * (p.columnValue j l₂ - coord p.y j)) -
      ∑ j ∈ Finset.range p.ncols, (p.pointAt l₁ j - p.pointAt l₂ j) ^ 2 := by
    simp only [← Finset.sum_add_distrib, ← Finset.sum_sub_distrib]
    exact Finset.sum_congr rfl fun j _ => by ring
  rw [hrows, hrows, ← Finset.sum_sub_distrib] at hsplit
  have h₁ := hobtuse l₁ l₂
  have h₂ := hobtuse l₂ l₁
  have hfactor : ∑ i ∈ Finset.range p.nrows, (l₁ i - l₂ i) *
      (p.rowValue i fun j => p.pointAt l₁ j - p.pointAt l₂ j) = ∑ i ∈ Finset.range p.nrows,
        (l₁ i * (p.rowValue i fun j => p.pointAt l₁ j - p.pointAt l₂ j) -
          l₂ i * p.rowValue i fun j => p.pointAt l₁ j - p.pointAt l₂ j) :=
    Finset.sum_congr rfl fun i _ => by ring
  rw [hfactor]
  linarith

end Problem

namespace Projection

variable {p p₁ p₂ : Problem K} {settings settings₁ settings₂ : Settings K} {s : Projection K σ₁}
  {s₁ s₁' : Projection K σ₁} {s₂ s₂' : Projection K σ₂} {status₁ status₂ : Status} {tol : K} {x : Nat → K}

theorem Found.rowWithin (h : Settled p settings s) (hf : Found p settings.tolFeas s) {i : Nat} (hi : i < p.nrows) :
    p.RowWithin settings.tolFeas i (coord s.solution.x) := by
  by_cases hdrop : s.engine.set.rowAt i = .dropped
  · exact hf.dropped i hi hdrop
  · have hact := ActiveSet.isActive_iff_ne.2 hdrop
    have hrow := hf.active i hact
    rw [← h.problem] at hrow ⊢
    exact h.atRest.regular.rowWithin_of_active hact hrow

/-- From the point of a found projection, no way to a point within the bounds goes against the multipliers by more
than the tolerances allow. -/
theorem Found.sum_gap (h : Settled p settings s) (hf : Found p settings.tolFeas s)
    (hx : ∀ i < p.nrows, p.RowWithin tol i x) :
    -((settings.tolFeas + tol) * ∑ i ∈ Finset.range p.nrows, |coord s.engine.lambda i|) ≤
      ∑ i ∈ Finset.range p.nrows,
        coord s.engine.lambda i * (p.rowValue i x - p.rowValue i (coord s.solution.x)) := by
  rw [Finset.mul_sum, ← Finset.sum_neg_distrib]
  refine Finset.sum_le_sum fun i hi => ?_
  have hactive := hf.active i
  have hx := hx i (Finset.mem_range.1 hi)
  rw [← h.problem] at hactive hx ⊢
  exact h.atRest.multiplier_gap hactive hx

/-- Two projections of the same data that were found have points as near to each other as their tolerances and the
sizes of their multipliers say, for any trees, settings and inner methods. -/
theorem solve_agree (hp₁ : p₁.Accepted) (hp₂ : p₂.Accepted) (hdata : p₁.SameData p₂)
    (h₁ : Reachable p₁ settings₁ s₁) (h₂ : Reachable p₂ settings₂ s₂)
    (hok₁ : s₁.solve = .ok (status₁, s₁')) (hok₂ : s₂.solve = .ok (status₂, s₂'))
    (hstatus₁ : status₁ = .solutionFound ∨ status₁ = .allRowsDropped)
    (hstatus₂ : status₂ = .solutionFound ∨ status₂ = .allRowsDropped) :
    ∑ j ∈ Finset.range p₁.ncols, (coord s₁'.solution.x j - coord s₂'.solution.x j) ^ 2 ≤
      (settings₁.tolFeas + settings₂.tolFeas) * (∑ i ∈ Finset.range p₁.nrows, |coord s₁'.solution.lambda i| +
        ∑ i ∈ Finset.range p₁.nrows, |coord s₂'.solution.lambda i|) := by
  obtain ⟨hsettled₁, hmax₁⟩ := h₁.settled hp₁
  obtain ⟨hsettled₂, hmax₂⟩ := h₂.settled hp₂
  obtain ⟨hs₁, hpoint₁, hlambda₁, hfound₁⟩ := hsettled₁.of_solve hp₁ hmax₁ hok₁
  obtain ⟨hs₂, hpoint₂, hlambda₂, hfound₂⟩ := hsettled₂.of_solve hp₂ hmax₂ hok₂
  have hf₁ := hfound₁ hstatus₁
  have hf₂ := hfound₂ hstatus₂
  have hpoint₂' : ∀ j < p₁.ncols, coord s₂'.solution.x j = p₁.pointAt (coord s₂'.engine.lambda) j := fun j hj => by
    rw [hpoint₂.eq j (hdata.ncols ▸ hj), hdata.pointAt]
  have hgap₁ := hf₁.sum_gap hs₁ fun i hi =>
    hdata.symm.rowWithin (hf₂.rowWithin hs₂ (hdata.nrows ▸ hi))
  have hgap₂ := hf₂.sum_gap hs₂ fun i hi =>
    hdata.rowWithin (hf₁.rowWithin hs₁ (hdata.nrows ▸ hi))
  simp only [hdata.nrows, hdata.rowValue] at hgap₂
  have hsum := hp₁.wellPosed.sum_sq_le (coord s₁'.engine.lambda) (coord s₂'.engine.lambda)
  have hrow : ∀ i, (p₁.rowValue i fun j => p₁.pointAt (coord s₁'.engine.lambda) j -
      p₁.pointAt (coord s₂'.engine.lambda) j) =
        p₁.rowValue i (coord s₁'.solution.x) - p₁.rowValue i (coord s₂'.solution.x) := fun i => by
    simp only [Problem.rowValue, ← Finset.sum_sub_distrib, ← mul_sub]
    refine Finset.sum_congr rfl fun j hj => ?_
    rw [hpoint₁.eq j (Finset.mem_range.1 hj), hpoint₂' j (Finset.mem_range.1 hj)]
  have hcross : ∑ i ∈ Finset.range p₁.nrows, (coord s₁'.engine.lambda i - coord s₂'.engine.lambda i) *
      (p₁.rowValue i (coord s₁'.solution.x) - p₁.rowValue i (coord s₂'.solution.x)) =
      -(∑ i ∈ Finset.range p₁.nrows, coord s₁'.engine.lambda i *
        (p₁.rowValue i (coord s₂'.solution.x) - p₁.rowValue i (coord s₁'.solution.x))) -
      ∑ i ∈ Finset.range p₁.nrows, coord s₂'.engine.lambda i *
        (p₁.rowValue i (coord s₁'.solution.x) - p₁.rowValue i (coord s₂'.solution.x)) := by
    rw [← Finset.sum_neg_distrib, ← Finset.sum_sub_distrib]
    exact Finset.sum_congr rfl fun i _ => by ring
  simp only [hrow, hcross] at hsum
  rw [hlambda₁, hlambda₂]
  calc ∑ j ∈ Finset.range p₁.ncols, (coord s₁'.solution.x j - coord s₂'.solution.x j) ^ 2
      = ∑ j ∈ Finset.range p₁.ncols, (p₁.pointAt (coord s₁'.engine.lambda) j -
          p₁.pointAt (coord s₂'.engine.lambda) j) ^ 2 := by
        refine Finset.sum_congr rfl fun j hj => ?_
        rw [hpoint₁.eq j (Finset.mem_range.1 hj), hpoint₂' j (Finset.mem_range.1 hj)]
    _ ≤ _ := by linarith

/-- A closer projection: another regularization and another tolerance. -/
def close : Settings ℚ :=
  ⟨1 / 4, false, 10, 10, 1 / 8, 0, 0, false, false, 0⟩

/-- Two projections onto the half-line before and after they are solved, the second one with the column in a leaf and
the row in the root. -/
def projectTwice : Checked ((Problem ℚ × Projection ℚ Unit × Status × Projection ℚ Unit) ×
    (Problem ℚ × Projection ℚ Unit × Status × Projection ℚ Unit)) := do
  let p ← accepted Problem.halfLine
  let tree ← accepted (.ok (BlockTree.ofParents #[some 1, none] #[0, 0, 1] #[0, 1, 1]))
  let q ← accepted (p.withBlockTree tree)
  let s₁ ← accepted (create p coarse)
  let s₂ ← accepted (create q close)
  let r₁ ← s₁.solve
  let r₂ ← s₂.solve
  return ((p, s₁, r₁), (q, s₂, r₂))

theorem solve_agree_halfLine : ∃ (p q : Problem ℚ) (s₁ s₁' s₂ s₂' : Projection ℚ Unit), p.Accepted ∧ q.Accepted ∧
    p.SameData q ∧ p.tree ≠ q.tree ∧ Reachable p coarse s₁ ∧ Reachable q close s₂ ∧
    s₁.solve = .ok (.solutionFound, s₁') ∧ s₂.solve = .ok (.solutionFound, s₂') ∧
    ∑ j ∈ Finset.range p.ncols, (coord s₁'.solution.x j - coord s₂'.solution.x j) ^ 2 ≤
      (1 / 2 + 1 / 8) * (∑ i ∈ Finset.range p.nrows, |coord s₁'.solution.lambda i| +
        ∑ i ∈ Finset.range p.nrows, |coord s₂'.solution.lambda i|) := by
  obtain ⟨⟨⟨p, s₁, status₁, s₁'⟩, q, s₂, status₂, s₂'⟩, hrun, hfound⟩ := exists_of_passes (x := projectTwice)
    (f := fun r => r.1.2.2.1 == .solutionFound && r.2.2.2.1 == .solutionFound && r.1.1.tree != r.2.1.tree)
    (by decide +kernel)
  unfold projectTwice at hrun
  simp only [bind_eq_ok_iff, accepted_eq_ok_iff, pure_eq_ok_iff, Prod.mk.injEq] at hrun
  obtain ⟨p', hp, tree, htree, q', hq, _, hs₁, _, hs₂, ⟨_, _⟩, hsolve₁, ⟨_, _⟩, hsolve₂, ⟨rfl, rfl, rfl, rfl⟩, rfl, rfl,
    rfl, rfl⟩ := hrun
  simp only [Bool.and_eq_true, beq_iff_eq, bne_iff_ne] at hfound
  obtain ⟨⟨rfl, rfl⟩, hne⟩ := hfound
  rw [Except.ok.injEq] at htree
  have haccepted : p'.Accepted := .create hp
  have hdata : p'.SameData q' := by
    rw [Problem.eq_of_withBlockTree hq]
    exact ⟨rfl, rfl, rfl, rfl, rfl, rfl⟩
  have hagree := solve_agree haccepted (haccepted.withBlockTree htree hq) hdata (.create hs₁) (.create hs₂) hsolve₁
    hsolve₂ (.inl rfl) (.inl rfl)
  exact ⟨_, _, _, _, _, _, haccepted, haccepted.withBlockTree htree hq, hdata, hne, .create hs₁, .create hs₂, hsolve₁,
    hsolve₂, hagree⟩

end Projection

end PolyProjection
