import Mathlib
import PolyProjection.Proofs.Projection.Solve

/-! When the active set has come to agree with the point. One pass over the columns and rows brings every status in
line with the multipliers and the point. A second pass finds nothing to do, unless a column is held where both of its
bounds and its unbounded value are the same: such a column goes from one of its bounds to the other in every pass. -/

namespace PolyProjection

set_option linter.unusedSectionVars false

variable {K : Type} [Field K] [LinearOrder K] [IsStrictOrderedRing K]

/-- The status goes with a column whose value without bounds is `z`. -/
def ColumnStatus.Suits (lo hi : Bound K) (z : K) : ColumnStatus → Prop
  | free => lo.IsBelow z ∧ hi.IsAbove z
  | atLower => lo.IsAbove z
  | atUpper => hi.IsBelow z

/-- The status of a column after a move. -/
def ColumnMove.target (st : ColumnStatus) : ColumnMove → ColumnStatus
  | stay => st
  | bind side => side.columnStatus
  | free => .free

/-- The bound at a side. -/
def Side.bound (lo hi : Bound K) : Side → Bound K
  | lower => lo
  | upper => hi

section Move

variable {lo hi : Bound K} {z : K} {st : ColumnStatus}

/-- A column is only moved to a finite bound. -/
theorem isFinite_of_columnMove {side : Side} (h : lo.isInterval hi = true) (hmove : columnMove st lo hi z = .bind side) :
    (side.bound lo hi).isFinite = true := by
  have hlo := Bound.isInterval_ne_posInf h
  have hhi := Bound.isInterval_ne_negInf h
  unfold columnMove at hmove
  cases st <;> simp only at hmove <;> split_ifs at hmove with h₁ h₂ <;>
    simp only [ColumnMove.bind.injEq] at hmove <;> subst hmove <;> simp only [Side.bound]
  · cases lo <;> simp_all [Bound.exceeds, Bound.isFinite, Bound.value?]
  · cases hi <;> simp_all [Bound.exceededBy, Bound.isFinite, Bound.value?]
  · cases hi <;> simp_all [Bound.coveredBy, Bound.isFinite, Bound.value?]
  · cases lo <;> simp_all [Bound.covers, Bound.isFinite, Bound.value?]

/-- After its move the status of a column goes with its value. -/
theorem suits_target (st : ColumnStatus) (lo hi : Bound K) (z : K) :
    ((columnMove st lo hi z).target st).Suits lo hi z := by
  cases st with
  | free =>
      rw [columnMove]
      split_ifs with hlo hhi
      · exact Bound.isAbove_of_not_isBelow (Bound.exceeds_iff.1 hlo)
      · exact Bound.isBelow_of_not_isAbove (Bound.exceededBy_iff.1 hhi)
      · exact ⟨not_not.1 (mt Bound.exceeds_iff.2 hlo), not_not.1 (mt Bound.exceededBy_iff.2 hhi)⟩
  | atLower =>
      rw [columnMove]
      split_ifs with hhi hlo
      · exact Bound.coveredBy_iff.1 hhi
      · exact ⟨Bound.isBelow_of_not_isAbove (Bound.exceededBy_iff.1 hlo),
          Bound.isAbove_of_not_isBelow (mt Bound.coveredBy_iff.2 hhi)⟩
      · exact not_not.1 (mt Bound.exceededBy_iff.2 hlo)
  | atUpper =>
      rw [columnMove]
      split_ifs with hlo hhi
      · exact Bound.covers_iff.1 hlo
      · exact ⟨Bound.isBelow_of_not_isAbove (mt Bound.covers_iff.2 hlo),
          Bound.isAbove_of_not_isBelow (Bound.exceeds_iff.1 hhi)⟩
      · exact not_not.1 (mt Bound.exceeds_iff.2 hhi)

/-- A column is held, and both of its bounds are the value that it has without bounds. -/
def ColumnStatus.Pinched (lo hi : Bound K) (z : K) (st : ColumnStatus) : Prop :=
  st ≠ .free ∧ lo = .finite z ∧ hi = .finite z

/-- A status that goes with its column stays, unless the column is pinched. -/
theorem columnMove_eq_stay_iff (h : lo.isInterval hi = true) (hst : st.Suits lo hi z) :
    columnMove st lo hi z = .stay ↔ ¬st.Pinched lo hi z := by
  rw [ColumnStatus.Pinched, ← Bound.isAbove_and_isBelow_iff h]
  cases st with
  | free =>
      simp only [columnMove, Bound.exceeds_iff, Bound.exceededBy_iff]
      simp [hst.1, hst.2]
  | atLower =>
      have hst : lo.IsAbove z := hst
      simp only [columnMove, Bound.coveredBy_iff, Bound.exceededBy_iff]
      by_cases hhi : hi.IsBelow z <;> simp [hst, hhi]
  | atUpper =>
      have hst : hi.IsBelow z := hst
      simp only [columnMove, Bound.covers_iff, Bound.exceeds_iff]
      by_cases hlo : lo.IsAbove z <;> simp [hst, hlo]

end Move

namespace Engine

variable {e e' : Engine K} {j : Nat} {side : Side} {b : Bool}

/-- A request to hold a column at a finite bound is met. -/
theorem Regular.met_of_bindColumn (h : e.Regular) (hj : j < e.problem.ncols)
    (hfin : (side.bound (e.problem.loAt j) (e.problem.hiAt j)).isFinite = true)
    (hok : e.bindColumn j side = .ok (b, e')) : b = true ∧ ColumnBound e e' j side := by
  rcases h.of_bindColumn hok with ⟨rfl, -⟩ | hmet
  · unfold bindColumn at hok
    cases side
    all_goals
      simp only [Side.bound] at hfin
      simp only [h.problem.fetch_lo hj, h.problem.fetch_hi hj, ok_bind, hfin, Bool.not_true, Bool.false_eq_true,
        if_false, bind_eq_ok_iff, pure_eq_ok_iff, Prod.mk.injEq] at hok
      obtain ⟨_, -, _, -, hfalse, -⟩ := hok
      cases hfalse
  · exact hmet

/-- A request to release a column that is held is met. -/
theorem Regular.met_of_freeColumn (h : e.Regular) (hheld : e.set.colAt j ≠ .free)
    (hok : e.freeColumn j = .ok (b, e')) :
    b = true ∧ ∃ g, ColumnReleased e g j ∧ e' = g.tell (.columnFreed j) := by
  rcases h.of_freeColumn hok with ⟨rfl, -⟩ | hmet
  · unfold freeColumn at hok
    obtain ⟨free, hfree, hok⟩ := bind_eq_ok_iff.1 hok
    obtain ⟨rfl, -⟩ := ActiveSet.isFree_ok hfree
    rw [if_neg (by simpa using hheld)] at hok
    simp only [bind_eq_ok_iff, pure_eq_ok_iff, Prod.mk.injEq] at hok
    obtain ⟨_, -, hfalse, -⟩ := hok
    cases hfalse
  · exact hmet

end Engine

namespace Projection

variable {σ : Type} {p : Problem K} {settings : Settings K} {s s' : Projection K σ} {e e' : Engine K} {i j : Nat}
  {b : Bool} {z : K}

/-- A move gives one column its new status and leaves the others and the rows as they are. -/
structure ColumnMoved (e e' : Engine K) (j : Nat) (z : K) (b : Bool) : Prop where
  colAt : ∀ k, e'.set.colAt k = if k = j then
    (columnMove (e.set.colAt j) (e.problem.loAt j) (e.problem.hiAt j) z).target (e.set.colAt j) else e.set.colAt k
  rowAt : ∀ k, e'.set.rowAt k = e.set.rowAt k
  met : b = false ↔ columnMove (e.set.colAt j) (e.problem.loAt j) (e.problem.hiAt j) z = .stay

theorem of_moveColumn (h : e.Regular) (hj : j < e.problem.ncols) (hok : moveColumn e j z = .ok (b, e')) :
    ColumnMoved e e' j z b := by
  have hstatus : fetch e.set.colStatus j = .ok (e.set.colAt j) :=
    ActiveSet.fetch_colStatus (by rw [h.set.size_colStatus]; exact hj)
  rw [moveColumn, hstatus, ok_bind, h.problem.fetch_lo hj, ok_bind, h.problem.fetch_hi hj, ok_bind] at hok
  cases hmove : columnMove (e.set.colAt j) (e.problem.loAt j) (e.problem.hiAt j) z with
  | stay =>
      rw [hmove, pure_eq_ok_iff, Prod.mk.injEq] at hok
      obtain ⟨rfl, rfl⟩ := hok
      refine ⟨fun k => ?_, fun _ => rfl, by simp [hmove]⟩
      rw [hmove]
      split_ifs with hk
      · rw [hk]
        rfl
      · rfl
  | bind side =>
      rw [hmove] at hok
      obtain ⟨rfl, hbound⟩ := h.met_of_bindColumn hj (isFinite_of_columnMove (h.problem.col_interval j hj) hmove) hok
      refine ⟨fun k => ?_, hbound.rowAt, by rw [hmove]; simp⟩
      rw [hmove]
      exact hbound.colAt h k
  | free =>
      rw [hmove] at hok
      have hheld : e.set.colAt j ≠ .free := by
        intro hfree
        rw [hfree, columnMove] at hmove
        split_ifs at hmove
      obtain ⟨rfl, g, hreleased, rfl⟩ := h.met_of_freeColumn hheld hok
      refine ⟨fun k => ?_, hreleased.rowAt, by rw [hmove]; simp⟩
      rw [hmove]
      exact hreleased.colAt h k

/-- A pass over a list of items, one after the other. -/
theorem countMet_reaches {ι : Type} {act : Engine K → ι → Checked (Bool × Engine K)} {items : List ι} {n : Nat}
    (P : List ι → Engine K → Prop) (hok : countMet act e items = .ok (n, e')) (h : P [] e)
    (step : ∀ done item rest g g' b, items = done ++ item :: rest → P done g → act g item = .ok (b, g') →
      P (done ++ [item]) g') : P items e' := by
  unfold countMet at hok
  refine foldlM_reaches (fun done (c : Nat × Engine K) => P done c.2) hok h ?_
  rintro done item rest ⟨n₁, e₁⟩ ⟨n₂, e₂⟩ hitems hP hstep
  simp only [bind_eq_ok_iff, pure_eq_ok_iff, Prod.mk.injEq] at hstep
  obtain ⟨⟨met, e₃⟩, hact, -, rfl⟩ := hstep
  exact step done item rest e₁ e₃ met hitems hP hact

/-- The status of every column goes with its value, and no dropped row is violated by more than the tolerance. -/
structure Agrees (p : Problem K) (tol : K) (s : Projection K σ) : Prop where
  cols : ∀ j < p.ncols,
    (s.engine.set.colAt j).Suits (p.loAt j) (p.hiAt j) (p.columnValue j (coord s.engine.lambda))
  rows : ∀ i < p.nrows, s.engine.set.rowAt i = .dropped → p.RowWithin tol i (coord s.solution.x)

/-- The columns after the pass over them. -/
theorem suits_of_pass (h : e.AtRest) {zs : Array K} {n : Nat}
    (hzs : ∀ j < e.problem.ncols, coord zs j = e.problem.columnValue j (coord e.lambda))
    (hok : countMet (fun e j => do moveColumn e j (← fetch zs j)) e (List.range e.problem.ncols) = .ok (n, e')) :
    ∀ j < e.problem.ncols, (e'.set.colAt j).Suits (e.problem.loAt j) (e.problem.hiAt j)
      (e.problem.columnValue j (coord e.lambda)) := by
  have hpass := countMet_reaches (fun done g => e.Reshaped g ∧ ∀ j ∈ done,
    (g.set.colAt j).Suits (e.problem.loAt j) (e.problem.hiAt j) (coord zs j)) hok ⟨h.reshaped, by simp⟩ (by
      rintro done j rest g g' b hdone ⟨hg, hsuits⟩ hstep
      have hj : j < e.problem.ncols := by
        rw [← List.mem_range, hdone]
        simp
      obtain ⟨z, hz, hstep⟩ := bind_eq_ok_iff.1 hstep
      obtain ⟨-, rfl⟩ := fetch_eq_ok_coord_iff.1 hz
      have hmoved := of_moveColumn hg.atRest.regular (hg.problem ▸ hj) hstep
      refine ⟨hg.trans (reshaped_of_moveColumn hg.atRest hstep).1, fun k hk => ?_⟩
      rw [hmoved.colAt, hg.problem]
      split_ifs with hkj
      · rw [hkj]
        exact suits_target _ _ _ _
      · refine hsuits k ?_
        rcases List.mem_append.1 hk with hk | hk
        · exact hk
        · exact absurd (List.mem_singleton.1 hk) hkj)
  intro j hj
  rw [← hzs j hj]
  exact hpass.2 j (List.mem_range.2 hj)

/-- A row that was looked at is active or within its bounds, and no column has changed. -/
theorem of_addViolated {x : Array K} (h : e.Regular) (hx : x.size = e.problem.ncols) (hi : i < e.problem.nrows)
    (hok : addViolated x e i = .ok (b, e')) : (∀ k, k ≠ i → e'.set.rowAt k = e.set.rowAt k) ∧
      (∀ k, e'.set.colAt k = e.set.colAt k) ∧
      (e'.set.rowAt i = .dropped → e.problem.RowWithin e.settings.tolFeas i (coord x)) := by
  have hcases : b = false ∧ e' = e ∨ b = true ∧ ∃ st, Engine.RowAdded e e' i st := by
    have hok' := hok
    unfold addViolated at hok'
    obtain ⟨active, -, hok'⟩ := bind_eq_ok_iff.1 hok'
    split_ifs at hok'
    · rw [pure_eq_ok_iff, Prod.mk.injEq] at hok'
      exact .inl ⟨hok'.1.symm, hok'.2.symm⟩
    · simp only [bind_eq_ok_iff] at hok'
      obtain ⟨r, -, bl, -, bu, -, hok'⟩ := hok'
      split at hok'
      · rw [pure_eq_ok_iff, Prod.mk.injEq] at hok'
        exact .inl ⟨hok'.1.symm, hok'.2.symm⟩
      · exact h.of_addRow hok'
  rcases hcases with ⟨rfl, rfl⟩ | ⟨rfl, st, hadded⟩
  · exact ⟨fun _ _ => rfl, fun _ => rfl, fun hdrop => rowWithin_of_addViolated h hx hi hdrop hok⟩
  · refine ⟨fun k hk => ?_, hadded.colAt, fun hdrop => ?_⟩
    · rw [hadded.rowAt h, if_neg hk]
    · rw [hadded.rowAt h, if_pos rfl] at hdrop
      have hact := hadded.active
      rw [hdrop] at hact
      cases hact

/-- The rows after the pass over them. -/
theorem within_of_pass {x : Array K} (h : e.AtRest) (hx : x.size = e.problem.ncols) {n : Nat}
    (hok : countMet (addViolated x) e (List.range e.problem.nrows) = .ok (n, e')) :
    (∀ k, e'.set.colAt k = e.set.colAt k) ∧ ∀ i < e.problem.nrows, e'.set.rowAt i = .dropped →
      e.problem.RowWithin e.settings.tolFeas i (coord x) := by
  have hpass := countMet_reaches (fun done g => e.Reshaped g ∧ (∀ k, g.set.colAt k = e.set.colAt k) ∧
    ∀ i ∈ done, g.set.rowAt i = .dropped → e.problem.RowWithin e.settings.tolFeas i (coord x)) hok
    ⟨h.reshaped, fun _ => rfl, by simp⟩ (by
      rintro done i rest g g' b hdone ⟨hg, hcols, hrows⟩ hstep
      have hi : i < e.problem.nrows := by
        rw [← List.mem_range, hdone]
        simp
      obtain ⟨hrow, hcol, hin⟩ := of_addViolated hg.atRest.regular (hg.problem ▸ hx) (hg.problem ▸ hi) hstep
      rw [hg.problem, hg.settings] at hin
      refine ⟨hg.trans (reshaped_of_addViolated hg.atRest hstep).1, fun k => (hcol k).trans (hcols k),
        fun k hk hdrop => ?_⟩
      by_cases hki : k = i
      · rw [hki] at hdrop ⊢
        exact hin hdrop
      · rw [hrow k hki] at hdrop
        refine hrows k ?_ hdrop
        rcases List.mem_append.1 hk with hk | hk
        · exact hk
        · exact absurd (List.mem_singleton.1 hk) hki)
  exact ⟨hpass.2.1, fun i hi => hpass.2.2 i (List.mem_range.2 hi)⟩

/-- After the active set has been brought in line with the point it agrees with it, and multipliers and point are the
same as before. -/
theorem agrees_of_reconcile (h : s.engine.AtRest) (hx : s.solution.x.size = s.engine.problem.ncols)
    (hok : s.reconcile = .ok (b, s')) : Agrees s.engine.problem s.engine.settings.tolFeas s' ∧
      s.engine.Reshaped s'.engine ∧ s'.solution = s.solution := by
  obtain ⟨⟨e, n, hform⟩, hreshaped, -⟩ := of_reconcile h hok
  unfold reconcile at hok
  obtain ⟨zs, hzs, -, hzcoord⟩ := h.regular.problem.shifted_ok h.regular.size_lambda
  simp only [hzs, ok_bind, bind_eq_ok_iff, pure_eq_ok_iff, Prod.mk.injEq] at hok
  obtain ⟨⟨moved, e₁⟩, hcols, ⟨added, e₂⟩, hrows, -, rfl⟩ := hok
  have h₁ : s.engine.Reshaped e₁ := (reshaped_of_countMet (fun j _ g g' b hg hstep => by
    obtain ⟨v, -, hstep⟩ := bind_eq_ok_iff.1 hstep
    exact reshaped_of_moveColumn hg hstep) h hcols).1
  have hsuits := suits_of_pass h hzcoord hcols
  rw [← h₁.problem] at hrows hx
  obtain ⟨hcol, hwithin⟩ := within_of_pass h₁.atRest hx hrows
  rw [h₁.problem, h₁.settings] at hwithin
  refine ⟨⟨fun j hj => ?_, hwithin⟩, hreshaped, rfl⟩
  rw [hreshaped.lambda, hcol]
  exact hsuits j hj

/-- A pass whose every item is turned down counts none. -/
theorem countMet_none {ι : Type} {act : Engine K → ι → Checked (Bool × Engine K)} {items : List ι}
    (h : ∀ item ∈ items, act e item = .ok (false, e)) : countMet act e items = .ok (0, e) := by
  unfold countMet
  induction items with
  | nil => rfl
  | cons item items ih =>
      rw [List.foldlM_cons]
      dsimp only
      rw [h item List.mem_cons_self, ok_bind]
      exact ih fun g hg => h g (List.mem_cons_of_mem item hg)

/-- No column is pinched. -/
def Unpinched (p : Problem K) (s : Projection K σ) : Prop :=
  ∀ j < p.ncols,
    ¬(s.engine.set.colAt j).Pinched (p.loAt j) (p.hiAt j) (p.columnValue j (coord s.engine.lambda))

theorem moveColumn_stay (h : e.Regular) (hj : j < e.problem.ncols)
    (hstay : columnMove (e.set.colAt j) (e.problem.loAt j) (e.problem.hiAt j) z = .stay) :
    moveColumn e j z = .ok (false, e) := by
  have hstatus : fetch e.set.colStatus j = .ok (e.set.colAt j) :=
    ActiveSet.fetch_colStatus (by rw [h.set.size_colStatus]; exact hj)
  rw [moveColumn, hstatus, ok_bind, h.problem.fetch_lo hj, ok_bind, h.problem.fetch_hi hj, ok_bind, hstay]
  rfl

theorem violatedSide?_of_rowWithin {tol r : K} {bl bu : Bound K} (hl : (bl.map (· - tol)).IsBelow r)
    (hu : (bu.map (· + tol)).IsAbove r) : violatedSide? bl bu tol r = none := by
  rw [violatedSide?, if_neg (mt Bound.exceeds_iff.1 (not_not.2 hl)), if_neg (mt Bound.exceededBy_iff.1 (not_not.2 hu))]

theorem addViolated_stay {x : Array K} (h : e.Regular) (hx : x.size = e.problem.ncols) (hi : i < e.problem.nrows)
    (hin : e.set.rowAt i = .dropped → e.problem.RowWithin e.settings.tolFeas i (coord x)) :
    addViolated x e i = .ok (false, e) := by
  rw [addViolated, h.set.isRowActive_eq hi, ok_bind]
  split_ifs with hact
  · rfl
  · have hwithin := hin (ActiveSet.isActive_eq_false_iff.1 (eq_false_of_ne_true hact))
    rw [h.problem.rowDot_ok hx hi, ok_bind, h.problem.fetch_bl hi, ok_bind, h.problem.fetch_bu hi, ok_bind,
      violatedSide?_of_rowWithin hwithin.1 hwithin.2]
    rfl

/-- An active set that agrees with the point stays as it is, and the answer is that nothing changed, exactly if no
column is pinched. -/
theorem Agrees.reconcile_iff (h : s.engine.AtRest) (hx : s.solution.x.size = s.engine.problem.ncols)
    (hagrees : Agrees s.engine.problem s.engine.settings.tolFeas s) :
    (∃ s', s.reconcile = .ok (false, s')) ↔ Unpinched s.engine.problem s := by
  obtain ⟨zs, hzs, hsize, hzcoord⟩ := h.regular.problem.shifted_ok h.regular.size_lambda
  have hmove : ∀ j < s.engine.problem.ncols, columnMove (s.engine.set.colAt j) (s.engine.problem.loAt j)
      (s.engine.problem.hiAt j) (coord zs j) = .stay ↔ ¬(s.engine.set.colAt j).Pinched (s.engine.problem.loAt j)
        (s.engine.problem.hiAt j) (s.engine.problem.columnValue j (coord s.engine.lambda)) := fun j hj => by
    rw [hzcoord j hj]
    exact columnMove_eq_stay_iff (h.regular.problem.col_interval j hj) (hagrees.cols j hj)
  have hfetch : ∀ j < s.engine.problem.ncols, fetch zs j = .ok (coord zs j) := fun j hj =>
    fetch_coord (hsize ▸ hj)
  constructor
  · rintro ⟨s', hok⟩ j hj
    unfold reconcile at hok
    simp only [hzs, ok_bind, bind_eq_ok_iff, pure_eq_ok_iff, Prod.mk.injEq, Bool.or_eq_false_iff,
      decide_eq_false_iff_not, Nat.not_lt, Nat.le_zero] at hok
    obtain ⟨⟨moved, e₁⟩, hcols, -, -, ⟨hmoved, -⟩, -⟩ := hok
    obtain ⟨-, hzero⟩ := reshaped_of_countMet (fun j _ g g' b hg hstep => by
      obtain ⟨v, -, hstep⟩ := bind_eq_ok_iff.1 hstep
      exact reshaped_of_moveColumn hg hstep) h hcols
    have hturned := (hzero hmoved).2 j (List.mem_range.2 hj)
    rw [hfetch j hj, ok_bind] at hturned
    exact (hmove j hj).1 ((of_moveColumn h.regular hj hturned).met.1 rfl)
  · intro hfree
    have hcols : countMet (fun e j => do moveColumn e j (← fetch zs j)) s.engine
        (List.range s.engine.problem.ncols) = .ok (0, s.engine) := countMet_none fun j hj => by
      have hj := List.mem_range.1 hj
      rw [hfetch j hj, ok_bind]
      exact moveColumn_stay h.regular hj ((hmove j hj).2 (hfree j hj))
    have hrows : countMet (addViolated s.solution.x) s.engine (List.range s.engine.problem.nrows) =
        .ok (0, s.engine) := countMet_none fun i hi =>
      addViolated_stay h.regular hx (List.mem_range.1 hi) (hagrees.rows i (List.mem_range.1 hi))
    refine ⟨{ s with engine := s.engine, rowsAdded := 0 }, ?_⟩
    unfold reconcile
    dsimp only
    rw [hzs, ok_bind, hcols, ok_bind, hrows]
    rfl

/-- One pass brings the active set in line with the point, with the multipliers and the point as they are. A second
pass answers that nothing changed, and changes nothing, exactly if no column is pinched. -/
theorem reconcile_settles (h : Settled p settings s) (hx : s.solution.x.size = p.ncols)
    (hok : s.reconcile = .ok (b, s')) :
    Agrees p settings.tolFeas s' ∧ s'.engine.lambda = s.engine.lambda ∧ s'.solution = s.solution ∧
      ((∃ s'', s'.reconcile = .ok (false, s'')) ↔ Unpinched p s') ∧
      ∀ s'', s'.reconcile = .ok (false, s'') → s''.engine = s'.engine := by
  obtain ⟨hagrees, hreshaped, hsolution⟩ := agrees_of_reconcile h.atRest (by rw [h.problem]; exact hx) hok
  have hproblem := hreshaped.problem.trans h.problem
  have hsettings := hreshaped.settings.trans h.settings
  have hx' : s'.solution.x.size = s'.engine.problem.ncols := by rw [hsolution, hproblem, hx]
  rw [h.problem, h.settings] at hagrees
  refine ⟨hagrees, hreshaped.lambda, hsolution, ?_, fun s'' hagain => ?_⟩
  · have hiff := Agrees.reconcile_iff hreshaped.atRest hx' (by rw [hproblem, hsettings]; exact hagrees)
    rwa [hproblem] at hiff
  · exact ((of_reconcile hreshaped.atRest hagain).2.2 rfl hx').1

/-- A round at whose point the active set agrees with it, without a pinched column and with the active rows at their
bounds, is the last one. -/
theorem Agrees.round_ends (hp : p.Accepted) (h : Settled p settings s) {number : Nat} {status : Status} {change : K}
    {s₁ s₂ : Projection K σ} (hascend : ascend { s with
      solution := { s.solution with rounds := s.solution.rounds + 1 } } = .ok (status, s₁))
    (hstatus : status ≠ .maxIterations) (hupdate : s₁.updatePoint = .ok (change, s₂))
    (hagrees : Agrees p settings.tolFeas s₂) (hfree : Unpinched p s₂) (hfeasible : s₂.isFeasible = .ok true) :
    ∃ status' s', s.round number = .ok (some status', s') ∧
      (status' = .solutionFound ∨ status' = .allRowsDropped) := by
  have h₀ : Settled p settings { s with solution := { s.solution with rounds := s.solution.rounds + 1 } } :=
    ⟨h.atRest, h.problem, h.settings, h.inner⟩
  obtain ⟨h₁, -⟩ := h₀.of_ascend hp hascend
  obtain ⟨⟨x, hs₂⟩, hpoint⟩ := h₁.of_updatePoint hupdate
  have h₂ : Settled p settings s₂ := by
    rw [hs₂]
    exact ⟨h₁.atRest, h₁.problem, h₁.settings, h₁.inner⟩
  have hx : s₂.solution.x.size = s₂.engine.problem.ncols := by rw [hpoint.size, h₂.problem]
  obtain ⟨s₃, hreconcile⟩ := (Agrees.reconcile_iff h₂.atRest hx (by
    rw [h₂.problem, h₂.settings]
    exact hagrees)).2 (by rw [h₂.problem]; exact hfree)
  obtain ⟨⟨e, n, hs₃⟩, -, hsame⟩ := of_reconcile h₂.atRest hreconcile
  have hengine := (hsame rfl hx).1
  have hfeasible₃ : s₃.isFeasible = .ok true := by
    have hsolution : s₃.solution = s₂.solution := by rw [hs₃]
    rw [isFeasible, hengine, hsolution]
    exact hfeasible
  rw [round, hascend, ok_bind]
  dsimp only
  rw [hupdate, ok_bind]
  dsimp only
  rw [if_neg hstatus, hreconcile, ok_bind]
  dsimp only
  rw [hfeasible₃, ok_bind]
  refine ⟨_, _, rfl, ?_⟩
  split_ifs <;> simp

/-- A column whose bounds are the same as the value that it starts from. -/
def pinchedColumn : Checked (Except ProblemError (Problem ℚ)) :=
  Problem.create ⟨1, 1, #[0, 1], #[0], #[1]⟩ #[.finite 0] #[.finite 2] #[.finite 1] #[.finite 1] #[1]

/-- A projection that is solved, and then brought in line with its point twice. -/
def reconcileTwice (problem : Checked (Except ProblemError (Problem ℚ))) : Checked (Problem ℚ × Projection ℚ Unit ×
    (Status × Projection ℚ Unit) × (Bool × Projection ℚ Unit) × Bool × Projection ℚ Unit) := do
  let p ← accepted problem
  let s ← accepted (create p coarse)
  let solved ← s.solve
  let once ← solved.2.reconcile
  let twice ← once.2.reconcile
  return (p, s, solved, once, twice)

theorem reconcile_settles_halfLine : ∃ (p : Problem ℚ) (s s' : Projection ℚ Unit) (b : Bool), Settled p coarse s ∧
    s.reconcile = .ok (b, s') ∧ Agrees p (1 / 2) s' ∧ Unpinched p s' := by
  obtain ⟨⟨p, s, ⟨status, s₁⟩, ⟨b, s₂⟩, again, s₃⟩, hrun, hsame⟩ := exists_of_passes
    (x := reconcileTwice Problem.halfLine) (f := fun r => !r.2.2.2.2.1) (by decide +kernel)
  unfold reconcileTwice at hrun
  simp only [bind_eq_ok_iff, accepted_eq_ok_iff, pure_eq_ok_iff, Prod.mk.injEq] at hrun
  obtain ⟨_, hp, _, hs, ⟨_, _⟩, hsolve, ⟨_, _⟩, honce, ⟨_, _⟩, htwice, rfl, rfl, ⟨rfl, rfl⟩, ⟨rfl, rfl⟩, rfl, rfl⟩ := hrun
  have hsame : again = false := Bool.not_eq_true' _ ▸ hsame
  subst hsame
  have haccepted := Problem.Accepted.create hp
  obtain ⟨hsettled, hmax⟩ := Reachable.settled haccepted (.create hs)
  obtain ⟨h₁, hpoint, -⟩ := hsettled.of_solve haccepted hmax hsolve
  have hsettles := reconcile_settles h₁ hpoint.size honce
  exact ⟨_, _, _, _, h₁, honce, hsettles.1, hsettles.2.2.2.1.1 ⟨_, htwice⟩⟩

/-- The rounds of a projection with a pinched column run out, and each further pass moves the column again. -/
theorem reconcile_flips : ∃ (p : Problem ℚ) (s s₁ s₂ s₃ : Projection ℚ Unit) (b : Bool), p.Accepted ∧
    Reachable p coarse s ∧ s.solve = .ok (.maxIterations, s₁) ∧ s₁.reconcile = .ok (b, s₂) ∧
    s₂.reconcile = .ok (true, s₃) ∧ s₂.engine.set.colAt 0 = .atUpper ∧ s₃.engine.set.colAt 0 = .atLower := by
  obtain ⟨⟨p, s, ⟨status, s₁⟩, ⟨b, s₂⟩, again, s₃⟩, hrun, hflips⟩ := exists_of_passes
    (x := reconcileTwice pinchedColumn) (f := fun r => r.2.2.2.2.1 && r.2.2.1.1 == .maxIterations &&
      r.2.2.2.1.2.engine.set.colAt 0 == .atUpper && r.2.2.2.2.2.engine.set.colAt 0 == .atLower) (by decide +kernel)
  unfold reconcileTwice at hrun
  simp only [bind_eq_ok_iff, accepted_eq_ok_iff, pure_eq_ok_iff, Prod.mk.injEq] at hrun
  obtain ⟨_, hp, _, hs, ⟨_, _⟩, hsolve, ⟨_, _⟩, honce, ⟨_, _⟩, htwice, rfl, rfl, ⟨rfl, rfl⟩, ⟨rfl, rfl⟩, rfl, rfl⟩ := hrun
  simp only [Bool.and_eq_true, beq_iff_eq] at hflips
  obtain ⟨⟨⟨rfl, rfl⟩, hupper⟩, hlower⟩ := hflips
  exact ⟨_, _, _, _, _, _, .create hp, .create hs, hsolve, honce, htwice, hupper, hlower⟩

end Projection

end PolyProjection
