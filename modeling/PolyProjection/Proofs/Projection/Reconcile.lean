import Mathlib
import PolyProjection.Projection.Solve
import PolyProjection.Proofs.Engine.Request
import PolyProjection.Proofs.Engine.Run

/-! Bringing the active set in line with the point. Requests between two runs leave the multipliers as they are,
and if none of them is met then no dropped row is violated by more than the tolerance. -/

namespace PolyProjection

set_option linter.unusedSectionVars false

variable {K : Type} [Field K] [LinearOrder K] [IsStrictOrderedRing K]

namespace Problem

/-- The point is within the bounds of row `i`, up to a tolerance. -/
def RowWithin (p : Problem K) (tol : K) (i : Nat) (x : Nat → K) : Prop :=
  ((p.blAt i).map (· - tol)).IsBelow (p.rowValue i x) ∧ ((p.buAt i).map (· + tol)).IsAbove (p.rowValue i x)

end Problem

namespace Engine

/-- The engine is at rest with the multipliers that it had. -/
structure Reshaped (e e' : Engine K) : Prop where
  atRest : e'.AtRest
  problem : e'.problem = e.problem
  settings : e'.settings = e.settings
  lambda : e'.lambda = e.lambda

variable {e e' e'' : Engine K} {i j : Nat} {side : Side} {b : Bool}

theorem AtRest.reshaped (h : e.AtRest) : Reshaped e e :=
  ⟨h, rfl, rfl, rfl⟩

theorem Reshaped.trans (h : Reshaped e e') (h' : Reshaped e' e'') : Reshaped e e'' :=
  ⟨h'.atRest, h'.problem.trans h.problem, h'.settings.trans h.settings, h'.lambda.trans h.lambda⟩

theorem SameState.reshaped (h : SameState e e') (hr : e.AtRest) : Reshaped e e' :=
  ⟨⟨h.regular hr.regular, h.dualFeasible hr.feasible, fun i => by
    rw [h.dlambda]
    exact hr.still i⟩, h.problem, h.settings, h.lambda⟩

/-- The multiplier of a row that enters is zero before it is set to zero. -/
theorem RowAdded.reshaped {st : RowStatus} (h : e.AtRest) (ha : RowAdded e e' i st) : Reshaped e e' where
  atRest := ⟨ha.regular h.regular, ha.dualFeasible h.regular h.feasible, fun k => by
    rw [ha.dlambda]
    split_ifs
    · rfl
    · exact h.still k⟩
  problem := ha.problem_eq
  settings := by
    obtain ⟨_, _, -, -, rfl⟩ := ha.eq
    rfl
  lambda := by
    refine ext_coord ?_ fun k _ => ?_
    · obtain ⟨_, _, -, -, rfl⟩ := ha.eq
      simp [tell]
    · rw [ha.lambda]
      split_ifs with hk
      · rw [hk, (h.feasible.dropped i ha.dropped).1]
      · rfl

theorem ColumnBound.reshaped (h : e.AtRest) (hb : ColumnBound e e' j side) : Reshaped e e' where
  atRest := ⟨hb.regular h.regular, hb.dualFeasible h.feasible, fun i => by
    rw [hb.lambda_eq.2]
    exact h.still i⟩
  problem := hb.problem_eq
  settings := by
    obtain ⟨_, _, _, _, -, -, rfl⟩ := hb.eq
    split <;> rfl
  lambda := hb.lambda_eq.1

theorem ColumnReleased.reshaped (h : e.AtRest) (hr : ColumnReleased e e' j) : Reshaped e e' := by
  have hregular := hr.regular h.regular
  have hfeasible := hr.dualFeasible h.feasible
  obtain ⟨_, _, _, _, -, -, rfl⟩ := hr.eq
  exact ⟨⟨hregular, hfeasible, h.still⟩, rfl, rfl, rfl⟩

theorem AtRest.of_addRow (h : e.AtRest) (hok : e.addRow i side = .ok (b, e')) :
    Reshaped e e' ∧ (b = false → e' = e) := by
  rcases h.regular.of_addRow hok with ⟨rfl, rfl⟩ | ⟨rfl, st, ha⟩
  · exact ⟨h.reshaped, fun _ => rfl⟩
  · exact ⟨ha.reshaped h, nofun⟩

theorem AtRest.of_bindColumn (h : e.AtRest) (hok : e.bindColumn j side = .ok (b, e')) :
    Reshaped e e' ∧ (b = false → e' = e) := by
  rcases h.regular.of_bindColumn hok with ⟨rfl, rfl⟩ | ⟨rfl, hb⟩
  · exact ⟨h.reshaped, fun _ => rfl⟩
  · exact ⟨hb.reshaped h, nofun⟩

theorem AtRest.of_freeColumn (h : e.AtRest) (hok : e.freeColumn j = .ok (b, e')) :
    Reshaped e e' ∧ (b = false → e' = e) := by
  rcases h.regular.of_freeColumn hok with ⟨rfl, rfl⟩ | ⟨rfl, g, hr, rfl⟩
  · exact ⟨h.reshaped, fun _ => rfl⟩
  · have hg := hr.reshaped h
    exact ⟨hg.trans ((quiet_tell g _).sameState.reshaped hg.atRest), nofun⟩

end Engine

namespace Projection

variable {σ : Type} {e e' : Engine K} {s s' : Projection K σ} {i j : Nat} {b : Bool}

theorem reshaped_of_moveColumn {z : K} (h : e.AtRest) (hok : moveColumn e j z = .ok (b, e')) :
    e.Reshaped e' ∧ (b = false → e' = e) := by
  unfold moveColumn at hok
  simp only [bind_eq_ok_iff] at hok
  obtain ⟨st, -, lo, -, hi, -, hok⟩ := hok
  cases hmove : columnMove st lo hi z with
  | stay =>
      rw [hmove, pure_eq_ok_iff, Prod.mk.injEq] at hok
      rw [← hok.2]
      exact ⟨h.reshaped, fun _ => rfl⟩
  | bind side =>
      rw [hmove] at hok
      exact h.of_bindColumn hok
  | free =>
      rw [hmove] at hok
      exact h.of_freeColumn hok

theorem reshaped_of_addViolated {x : Array K} (h : e.AtRest) (hok : addViolated x e i = .ok (b, e')) :
    e.Reshaped e' ∧ (b = false → e' = e) := by
  unfold addViolated at hok
  obtain ⟨active, -, hok⟩ := bind_eq_ok_iff.1 hok
  cases active with
  | true =>
      rw [if_pos rfl, pure_eq_ok_iff, Prod.mk.injEq] at hok
      rw [← hok.2]
      exact ⟨h.reshaped, fun _ => rfl⟩
  | false =>
      simp only [Bool.false_eq_true, if_false, bind_eq_ok_iff] at hok
      obtain ⟨r, -, bl, -, bu, -, hok⟩ := hok
      cases hside : violatedSide? bl bu e.settings.tolFeas r with
      | none =>
          rw [hside, pure_eq_ok_iff, Prod.mk.injEq] at hok
          rw [← hok.2]
          exact ⟨h.reshaped, fun _ => rfl⟩
      | some side =>
          rw [hside] at hok
          exact h.of_addRow hok

/-- Requests of which none is met are all turned down by the same engine. -/
theorem reshaped_of_countMet {ι : Type} {act : Engine K → ι → Checked (Bool × Engine K)} {items : List ι} {n : Nat}
    (step : ∀ item ∈ items, ∀ (g g' : Engine K) b, g.AtRest → act g item = .ok (b, g') →
      g.Reshaped g' ∧ (b = false → g' = g))
    (h : e.AtRest) (hok : countMet act e items = .ok (n, e')) :
    e.Reshaped e' ∧ (n = 0 → e' = e ∧ ∀ item ∈ items, act e item = .ok (false, e)) := by
  unfold countMet at hok
  refine foldlM_reaches (fun done c => e.Reshaped c.2 ∧
    (c.1 = 0 → c.2 = e ∧ ∀ item ∈ done, act e item = .ok (false, e))) hok ⟨h.reshaped, fun _ => ⟨rfl, by simp⟩⟩ ?_
  rintro done item rest ⟨n₁, e₁⟩ ⟨n₂, e₂⟩ hitems ⟨hreshaped, hzero⟩ hstep
  simp only [bind_eq_ok_iff, pure_eq_ok_iff, Prod.mk.injEq] at hstep
  obtain ⟨⟨met, e₃⟩, hact, hn, rfl⟩ := hstep
  obtain ⟨hstep, hfalse⟩ := step item (by rw [hitems]; simp) e₁ e₃ met hreshaped.atRest hact
  refine ⟨hreshaped.trans hstep, fun hn₂ => ?_⟩
  cases met with
  | true =>
      rw [if_pos rfl] at hn
      exact absurd (hn.trans hn₂) (Nat.succ_ne_zero _)
  | false =>
      rw [if_neg Bool.false_ne_true] at hn
      obtain ⟨heq, hall⟩ := hzero (hn.trans hn₂)
      have heq' := (hfalse rfl).trans heq
      refine ⟨heq', fun g hg => ?_⟩
      rcases List.mem_append.1 hg with hg | hg
      · exact hall g hg
      · have heq : e₁ = e := heq
        rw [List.mem_singleton.1 hg]
        rw [heq] at hact
        rw [hact, heq']

/-- A side at which a row is violated can be entered. -/
theorem entryStatus?_of_violated {p : Problem K} (hp : p.WellPosed) (hi : i < p.nrows) {tol r : K} {side : Side}
    (hside : violatedSide? (p.blAt i) (p.buAt i) tol r = some side) :
    ∃ st, Engine.entryStatus? p i side = .ok (some st) := by
  have hl := Bound.isInterval_ne_posInf (hp.row_interval i hi)
  have hu := Bound.isInterval_ne_negInf (hp.row_interval i hi)
  unfold Engine.entryStatus?
  rw [hp.isEquality_ok hi, ok_bind, hp.fetch_bl hi, hp.fetch_bu hi]
  split_ifs
  · exact ⟨_, rfl⟩
  unfold violatedSide? at hside
  split_ifs at hside with hlower hupper
  · rw [Option.some.injEq] at hside
    subst hside
    cases hb : p.blAt i with
    | negInf => rw [hb] at hlower; cases hlower
    | finite v => exact ⟨.atLower, by simp [Bound.isFinite_exact_iff]⟩
    | posInf => exact absurd hb hl
  · rw [Option.some.injEq] at hside
    subst hside
    cases hb : p.buAt i with
    | negInf => exact absurd hb hu
    | finite v => exact ⟨.atUpper, by simp [Bound.isFinite_exact_iff]⟩
    | posInf => rw [hb] at hupper; cases hupper

theorem rowWithin_of_violatedSide? {p : Problem K} (hp : p.WellPosed) (hi : i < p.nrows) {tol : K} {x : Nat → K}
    (hside : violatedSide? (p.blAt i) (p.buAt i) tol (p.rowValue i x) = none) : p.RowWithin tol i x := by
  have hl := Bound.isInterval_ne_posInf (hp.row_interval i hi)
  have hu := Bound.isInterval_ne_negInf (hp.row_interval i hi)
  unfold violatedSide? at hside
  split_ifs at hside with hlower hupper
  constructor
  · cases hb : p.blAt i with
    | negInf => trivial
    | finite v =>
        rw [hb] at hlower
        simp only [Bound.map, Bound.exceeds, decide_eq_true_eq, not_lt] at hlower
        exact hlower
    | posInf => exact absurd hb hl
  · cases hb : p.buAt i with
    | negInf => exact absurd hb hu
    | finite v =>
        rw [hb] at hupper
        simp only [Bound.map, Bound.exceededBy, decide_eq_true_eq, not_lt] at hupper
        exact hupper
    | posInf => trivial

/-- A dropped row that was not added is within its bounds. -/
theorem rowWithin_of_addViolated {x : Array K} (h : e.Regular) (hx : x.size = e.problem.ncols)
    (hi : i < e.problem.nrows) (hdrop : e.set.rowAt i = .dropped)
    (hok : addViolated x e i = .ok (false, e')) : e.problem.RowWithin e.settings.tolFeas i (coord x) := by
  have hactive : e.set.isRowActive i = .ok false := by
    rw [h.set.isRowActive_eq hi, hdrop]
    rfl
  unfold addViolated at hok
  rw [hactive, ok_bind, if_neg (by decide), h.problem.rowDot_ok hx hi, ok_bind, h.problem.fetch_bl hi, ok_bind,
    h.problem.fetch_bu hi, ok_bind] at hok
  cases hside : violatedSide? (e.problem.blAt i) (e.problem.buAt i) e.settings.tolFeas
      (e.problem.rowValue i (coord x)) with
  | none => exact rowWithin_of_violatedSide? h.problem hi hside
  | some side =>
      rw [hside] at hok
      obtain ⟨st, hst⟩ := entryStatus?_of_violated h.problem hi hside
      unfold Engine.addRow at hok
      simp only [hactive, ok_bind, Bool.false_eq_true, if_false, hst, bind_eq_ok_iff, pure_eq_ok_iff,
        Prod.mk.injEq] at hok
      obtain ⟨_, -, _, -, _, -, hfalse, -⟩ := hok
      cases hfalse

/-- The engine after the first active set has been chosen. -/
theorem reshaped_of_start (h : s.engine.AtRest) (hok : s.start = .ok s') :
    s.engine.Reshaped s'.engine ∧ s'.inner = s.inner := by
  unfold start at hok
  simp only [bind_eq_ok_iff, pure_eq_ok_iff] at hok
  obtain ⟨equalities, -, e₁, hrows, e₂, hcols, rfl⟩ := hok
  have h₁ : s.engine.Reshaped e₁ := by
    refine foldlM_keeps (fun e => s.engine.Reshaped e) hrows h.reshaped fun i _ g g' hg hstep => ?_
    simp only [bind_eq_ok_iff, pure_eq_ok_iff] at hstep
    obtain ⟨⟨b, g₁⟩, hadd, rfl⟩ := hstep
    exact hg.trans (hg.atRest.of_addRow hadd).1
  refine ⟨foldlM_keeps (fun e => s.engine.Reshaped e) hcols h₁ fun j _ g g' hg hstep => ?_, rfl⟩
  unfold startColumn at hstep
  obtain ⟨y, -, hstep⟩ := bind_eq_ok_iff.1 hstep
  obtain ⟨lo, -, hstep⟩ := bind_eq_ok_iff.1 hstep
  split_ifs at hstep
  · simp only [bind_eq_ok_iff, pure_eq_ok_iff] at hstep
    obtain ⟨⟨b, g₁⟩, hbind, rfl⟩ := hstep
    exact hg.trans (hg.atRest.of_bindColumn hbind).1
  · obtain ⟨hi, -, hstep⟩ := bind_eq_ok_iff.1 hstep
    split_ifs at hstep
    · simp only [bind_eq_ok_iff, pure_eq_ok_iff] at hstep
      obtain ⟨⟨b, g₁⟩, hbind, rfl⟩ := hstep
      exact hg.trans (hg.atRest.of_bindColumn hbind).1
    · rw [pure_eq_ok_iff] at hstep
      rwa [← hstep]

/-- The multipliers outlive the changes of the active set. If nothing changes, dropped rows are within their
bounds. -/
theorem of_reconcile (h : s.engine.AtRest) (hok : s.reconcile = .ok (b, s')) :
    (∃ e rowsAdded, s' = { s with engine := e, rowsAdded := rowsAdded }) ∧ s.engine.Reshaped s'.engine ∧
      (b = false → s.solution.x.size = s.engine.problem.ncols → s'.engine = s.engine ∧
        ∀ i < s.engine.problem.nrows, s.engine.set.rowAt i = .dropped →
          s.engine.problem.RowWithin s.engine.settings.tolFeas i (coord s.solution.x)) := by
  unfold reconcile at hok
  simp only [bind_eq_ok_iff, pure_eq_ok_iff, Prod.mk.injEq] at hok
  obtain ⟨z, -, ⟨moved, e₁⟩, hcols, ⟨added, e₂⟩, hrows, rfl, rfl⟩ := hok
  obtain ⟨h₁, hzero₁⟩ := reshaped_of_countMet (fun j _ g g' b hg hstep => by
    simp only [bind_eq_ok_iff] at hstep
    obtain ⟨v, -, hstep⟩ := hstep
    exact reshaped_of_moveColumn hg hstep) h hcols
  obtain ⟨h₂, hzero₂⟩ := reshaped_of_countMet (fun i _ g g' b hg hstep => reshaped_of_addViolated hg hstep)
    h₁.atRest hrows
  refine ⟨⟨e₂, added, rfl⟩, h₁.trans h₂, fun hb hx => ?_⟩
  rw [Bool.or_eq_false_iff, decide_eq_false_iff_not, decide_eq_false_iff_not, Nat.not_lt, Nat.not_lt,
    Nat.le_zero, Nat.le_zero] at hb
  obtain ⟨heq₁, -⟩ := hzero₁ hb.1
  obtain ⟨heq₂, hall⟩ := hzero₂ hb.2
  have heq₁ : e₁ = s.engine := heq₁
  have heq₂ : e₂ = e₁ := heq₂
  subst heq₁
  exact ⟨heq₂, fun i hi hdrop => rowWithin_of_addViolated h.regular hx hi hdrop (hall i (List.mem_range.2 hi))⟩

/-- The active rows are at their bounds up to the tolerance. -/
theorem of_isFeasible (h : s.engine.Regular) (hx : s.solution.x.size = s.engine.problem.ncols)
    (hok : s.isFeasible = .ok true) (hact : (s.engine.set.rowAt i).isActive = true) :
    |s.engine.problem.rowValue i (coord s.solution.x) - s.engine.boundAt i| ≤ s.engine.settings.tolFeas := by
  have hi := h.row_lt hact
  unfold isFeasible at hok
  dsimp only at hok
  rw [h.set.rows.toList_eq, ok_bind] at hok
  have hrow := allM_eq_ok_true hok i (ActiveSet.mem_activeList_iff.2 hact)
  rw [h.problem.rowDot_ok hx hi, ok_bind, h.rowBound_ok hi, ok_bind, pure_eq_ok_iff, decide_eq_true_eq] at hrow
  exact hrow

end Projection

end PolyProjection
