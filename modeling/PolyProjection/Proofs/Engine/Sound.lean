import Mathlib
import PolyProjection.Proofs.Consistency
import PolyProjection.Proofs.Engine.Following

/-! What the steps of a run need to be carried out. The vectors have the lengths of the rows and columns, and the list of
the bound columns has exactly these; whatever happens to an engine, both stay so. -/

namespace PolyProjection

set_option linter.unusedSectionVars false

variable {K : Type} [Field K] [LinearOrder K] [IsStrictOrderedRing K]

/-- A loop whose rounds can be carried out and keep a property is carried out and keeps it. -/
theorem foldlM_carries {β ι : Type} {f : β → ι → Checked β} (P : β → Prop) {l : List ι} {b : β} (hb : P b)
    (step : ∀ x ∈ l, ∀ c, P c → ∃ c', f c x = .ok c' ∧ P c') : ∃ b', l.foldlM f b = .ok b' ∧ P b' :=
  foldlM_succeeds (fun _ => P) hb fun done x rest c hl hc => step x (by rw [hl]; simp) c hc

/-- What one computation carries out the next one can go on from. -/
theorem bind_carries {α β : Type} {x : Checked α} {f : α → Checked β} {P : α → Prop} {Q : β → Prop}
    (hx : ∃ a, x = .ok a ∧ P a) (hf : ∀ a, P a → ∃ b, f a = .ok b ∧ Q b) : ∃ b, x >>= f = .ok b ∧ Q b := by
  obtain ⟨a, rfl, ha⟩ := hx
  exact hf a ha

/-- The vectors of a run over `m` rows and `n` columns. -/
structure Workspace.Fits (w : Workspace K) (m n : ℕ) : Prop where
  reference : w.reference.size = n
  c : w.c.size = n
  cold : w.cold.size = n
  pa : w.pa.size = n
  rhs : w.rhs.size = m
  fwd : w.fwd.size = m
  u : w.u.size = m
  t : w.t.size = m

namespace Engine

/-- Lengths and lists are as the steps of a run need them. -/
structure Sound (e : Engine K) : Prop where
  regular : e.Regular
  work : e.work.Fits e.problem.nrows e.problem.ncols
  columns : e.set.ColsAgree e.problem.ncols

variable {e e' : Engine K} {i j : ℕ} {side : Side} {st : RowStatus} {p : Problem K} {settings : Settings K}

theorem SameState.sound (h : SameState e e') (hs : e.Sound) : e'.Sound := by
  obtain ⟨_, hset⟩ := h.set
  refine ⟨h.regular hs.regular, ?_, ?_⟩
  · rw [h.work, h.problem]
    exact hs.work
  · rw [h.problem]
    exact hs.columns.of_bound_eq (by rw [hset]) (by rw [hset]) (by rw [hset]) (by rw [hset])

theorem RowAdded.sound (hs : e.Sound) (ha : RowAdded e e' i st) : e'.Sound := by
  have hr := ha.regular hs.regular
  obtain ⟨set, rows, -, rfl, rfl⟩ := ha.eq
  exact ⟨hr, hs.work, hs.columns.of_bound_eq rfl rfl rfl rfl⟩

theorem ColumnBound.sound (hs : e.Sound) (hb : ColumnBound e e' j side) : e'.Sound := by
  have hr := hb.regular hs.regular
  obtain ⟨set, _, _, _, hok, -, rfl⟩ := hb.eq
  have hcolumns := hs.columns.of_activateBound hs.regular.set.size_colStatus hok
  split_ifs at hr ⊢ <;> exact ⟨hr, hs.work, hcolumns⟩

theorem ColumnReleased.sound (hs : e.Sound) (hc : ColumnReleased e e' j) : e'.Sound := by
  have hr := hc.regular hs.regular
  obtain ⟨set, _, _, _, hok, -, rfl⟩ := hc.eq
  exact ⟨hr, hs.work, (hs.columns.of_release hs.regular.set.size_colStatus hok).2⟩

theorem fits_of_rebaseColumn {w w' : Workspace K} {m n : ℕ} (hw : w.Fits m n) (hok : e.rebaseColumn w j = .ok w') :
    w'.Fits m n := by
  unfold rebaseColumn at hok
  simp only [bind_eq_ok_iff] at hok
  obtain ⟨z, -, bound, -, hok⟩ := hok
  cases bound
  all_goals
    simp only [pure_bind_ok, bind_eq_ok_iff, pure_eq_ok_iff, store_eq_ok_iff] at hok
    obtain ⟨_, ⟨-, rfl⟩, _, ⟨-, rfl⟩, _, ⟨-, rfl⟩, _, ⟨-, rfl⟩, rfl⟩ := hok
    exact ⟨by simp [hw.reference], by simp [hw.c], by simp [hw.cold], by simp [hw.pa], hw.rhs, hw.fwd, hw.u, hw.t⟩

theorem Sound.of_rebase (hs : e.Sound) (hok : e.rebase = .ok e') : e'.Sound := by
  have hr := hs.regular
  have hr' := (hr.of_rebase hok).regular hr
  unfold rebase at hok
  rw [bind_eq_ok_iff] at hok
  obtain ⟨e₁, hfold, hok⟩ := hok
  obtain ⟨lambda, rfl, hsize, -⟩ := hr.of_foldIncrements hfold
  obtain ⟨z, hz, hzsize, -⟩ := hr.problem.shifted_ok (hsize.trans hr.size_lambda)
  simp only [hz, ok_bind, bind_eq_ok_iff, pure_eq_ok_iff] at hok
  obtain ⟨w, hcols, rhs, hrows, rfl⟩ := hok
  have hw := hs.work
  have hfits : w.Fits e.problem.nrows e.problem.ncols :=
    foldlM_keeps (fun w => w.Fits e.problem.nrows e.problem.ncols) hcols
      ⟨hzsize, hw.c, hw.cold, hw.pa, hw.rhs, hw.fwd, hw.u, hw.t⟩ fun _ _ _ _ h hstep => fits_of_rebaseColumn h hstep
  have hrhs : rhs.size = e.problem.nrows :=
    foldlM_keeps (fun rhs => rhs.size = e.problem.nrows) hrows hfits.rhs fun i _ rhs rhs' h hstep => by
      obtain ⟨_, -, hstore⟩ := bind_eq_ok_iff.1 hstep
      obtain ⟨-, rfl⟩ := store_eq_ok_iff.1 hstore
      rw [Array.size_setIfInBounds, h]
  exact ⟨hr', ⟨hfits.reference, hfits.c, hfits.cold, hfits.pa, hrhs, hfits.fwd, hfits.u, hfits.t⟩, hs.columns⟩

theorem sound_of_create (hp : p.WellPosed) (hok : create p settings = .ok (.ok e)) : e.Sound := by
  have hr := (of_create hp hok).2.1.regular
  obtain ⟨-, f, -, rfl⟩ := create_eq_ok_iff.1 hok
  exact ⟨hr, by constructor <;> exact Array.size_replicate .., ActiveSet.colsAgree_empty _ _⟩

theorem Sound.of_work (hs : e.Sound) {w : Workspace K} (hw : w.Fits e.problem.nrows e.problem.ncols) :
    Sound { e with work := w } :=
  ⟨hs.regular.of_work w, hw, hs.columns⟩

theorem Sound.of_heap (hs : e.Sound) {heap : BreakHeap K} (hheap : heap.Valid (e.problem.ncols + e.problem.nrows)) :
    Sound { e with heap := heap } :=
  ⟨hs.regular.of_heap hheap, hs.work, hs.columns⟩

section Reads

variable (hs : e.Sound)

include hs

theorem Sound.isRowActive_ok (hi : i < e.problem.nrows) : e.set.isRowActive i = .ok (e.set.rowAt i).isActive :=
  hs.regular.set.isRowActive_eq hi

theorem Sound.isFree_ok (hj : j < e.problem.ncols) : e.set.isFree j = .ok (e.set.colAt j == .free) :=
  ActiveSet.isFree_eq (by rw [hs.regular.set.size_colStatus]; exact hj)

theorem Sound.fetch_rowStatus (hi : i < e.problem.nrows) : fetch e.set.rowStatus i = .ok (e.set.rowAt i) :=
  ActiveSet.fetch_rowStatus (by rw [hs.regular.set.size_rowStatus]; exact hi)

theorem Sound.fetch_colStatus (hj : j < e.problem.ncols) : fetch e.set.colStatus j = .ok (e.set.colAt j) :=
  ActiveSet.fetch_colStatus (by rw [hs.regular.set.size_colStatus]; exact hj)

theorem Sound.consistent : e.set.isConsistent = .ok true :=
  ActiveSet.isConsistent_ok hs.regular.set hs.columns

end Reads

section Requests

variable (hs : e.Sound)

include hs

theorem Sound.entryStatus?_ok (hi : i < e.problem.nrows) (side : Side) : ∃ st?, entryStatus? e.problem i side = .ok st? ∧
    ∀ st, st? = some st → st.isActive = true := by
  have hp := hs.regular.problem
  unfold entryStatus?
  rw [hp.isEquality_ok hi, ok_bind]
  split_ifs
  · exact ⟨_, rfl, by rintro _ ⟨⟩; rfl⟩
  · cases side
    · simp only [hp.fetch_bl hi, ok_bind]
      split_ifs
      · exact ⟨_, rfl, by rintro _ ⟨⟩; rfl⟩
      · exact ⟨_, rfl, by rintro _ ⟨⟩⟩
    · simp only [hp.fetch_bu hi, ok_bind]
      split_ifs
      · exact ⟨_, rfl, by rintro _ ⟨⟩; rfl⟩
      · exact ⟨_, rfl, by rintro _ ⟨⟩⟩

theorem Sound.addRow_ok (hi : i < e.problem.nrows) (side : Side) :
    ∃ b e', e.addRow i side = .ok (b, e') ∧ e'.Sound := by
  obtain ⟨b, e', hok⟩ : ∃ b e', e.addRow i side = .ok (b, e') := by
    rw [addRow, hs.isRowActive_ok hi, ok_bind]
    split_ifs with hact
    · exact ⟨_, _, rfl⟩
    · obtain ⟨st?, hst, hactive⟩ := hs.entryStatus?_ok hi side
      rw [hst, ok_bind]
      cases st? with
      | none => exact ⟨_, _, rfl⟩
      | some st =>
          obtain ⟨set, hset, -⟩ := hs.regular.set.activate_ok hi
            (ActiveSet.isActive_eq_false_iff.1 (eq_false_of_ne_true hact)) (hactive st rfl)
          dsimp only
          rw [hset, ok_bind, store_of_lt' _ (by rw [hs.regular.size_lambda]; exact hi), ok_bind,
            store_of_lt' _ (by rw [hs.regular.size_dlambda]; exact hi), ok_bind]
          exact ⟨_, _, rfl⟩
  refine ⟨b, e', hok, ?_⟩
  obtain ⟨-, rfl⟩ | ⟨-, st, hadded⟩ := hs.regular.of_addRow hok
  · exact hs
  · exact hadded.sound hs

theorem Sound.bindColumn_ok (hj : j < e.problem.ncols) (side : Side) :
    ∃ b e', e.bindColumn j side = .ok (b, e') ∧ e'.Sound := by
  obtain ⟨b, e', hok⟩ : ∃ b e', e.bindColumn j side = .ok (b, e') := by
    obtain ⟨set, hset, -⟩ := hs.columns.activateBound_ok side hs.regular.set.size_colStatus hj
    unfold bindColumn
    cases side
    · simp only [hs.regular.problem.fetch_lo hj, hs.isFree_ok hj, hset, ok_bind]
      split_ifs <;> exact ⟨_, _, rfl⟩
    · simp only [hs.regular.problem.fetch_hi hj, hs.isFree_ok hj, hset, ok_bind]
      split_ifs <;> exact ⟨_, _, rfl⟩
  refine ⟨b, e', hok, ?_⟩
  obtain ⟨-, rfl⟩ | ⟨-, hbound⟩ := hs.regular.of_bindColumn hok
  · exact hs
  · exact hbound.sound hs

theorem Sound.releaseColumn_ok (hj : j < e.problem.ncols) (hheld : e.set.colAt j ≠ .free) :
    ∃ e', e.releaseColumn j = .ok e' ∧ e'.Sound := by
  obtain ⟨set, hset, -⟩ := hs.columns.release_ok hs.regular.set.size_colStatus hj hheld
  have hok : e.releaseColumn j = .ok _ := bind_eq_ok_iff.2 ⟨set, hset, rfl⟩
  exact ⟨_, hok, (hs.regular.of_releaseColumn hok).sound hs⟩

theorem Sound.freeColumn_ok (hj : j < e.problem.ncols) : ∃ b e', e.freeColumn j = .ok (b, e') ∧ e'.Sound := by
  rw [freeColumn, hs.isFree_ok hj, ok_bind]
  split_ifs with hfree
  · exact ⟨_, _, rfl, hs⟩
  · obtain ⟨e', hok, hs'⟩ := hs.releaseColumn_ok hj (by simpa using hfree)
    exact ⟨true, _, by rw [hok]; rfl, (quiet_tell e' _).sameState.sound hs'⟩

theorem Sound.setDual_ok {entries : List (ℕ × K)} (hentries : ∀ x ∈ entries, x.1 < e.problem.nrows) :
    ∃ e', e.setDual entries = .ok e' ∧ e'.Sound := by
  obtain ⟨lambda, hlambda, hsize⟩ := foldlM_carries (fun l : Array K => l.size = e.problem.nrows)
    hs.regular.size_lambda (l := entries) (f := fun l p => store l p.1 p.2) fun x hx l hl =>
      ⟨_, store_of_lt' _ (hl ▸ hentries x hx), by rw [Array.size_setIfInBounds, hl]⟩
  have hr := hs.regular
  exact ⟨_, bind_eq_ok_iff.2 ⟨lambda, hlambda, rfl⟩, ⟨hr.problem, hr.set, hr.rows_fit, hr.cols_fit, hr.heap, hsize,
    hr.size_dlambda⟩, hs.work, hs.columns⟩

theorem Sound.foldIncrements_ok : ∃ e', e.foldIncrements = .ok e' := by
  have hr := hs.regular
  obtain ⟨lambda, hlambda, -⟩ := foldlM_carries (fun l : Array K => l.size = e.problem.nrows) hr.size_lambda
    (l := List.range e.problem.nrows) (f := fun l i => do
      if ← e.set.isRowActive i then
        let d ← fetch e.dlambda i
        adjust l i (· + d)
      else store l i 0) fun i hi l hl => by
    have hi := List.mem_range.1 hi
    rw [hs.isRowActive_ok hi, ok_bind]
    split_ifs
    · rw [fetch_coord (by rw [hr.size_dlambda]; exact hi), ok_bind, adjust_coord _ (by rw [hl]; exact hi)]
      exact ⟨_, rfl, by rw [Array.size_setIfInBounds, hl]⟩
    · exact ⟨_, store_of_lt' _ (by rw [hl]; exact hi), by rw [Array.size_setIfInBounds, hl]⟩
  exact ⟨_, bind_eq_ok_iff.2 ⟨lambda, hlambda, rfl⟩⟩

theorem Sound.rebaseColumn_ok {w : Workspace K} (hw : w.Fits e.problem.nrows e.problem.ncols)
    (hj : j < e.problem.ncols) : ∃ w', e.rebaseColumn w j = .ok w' := by
  rw [rebaseColumn, fetch_coord (by rw [hw.reference]; exact hj), ok_bind, hs.regular.columnBound?_ok hj, ok_bind]
  cases e.columnBoundAt j
  all_goals
    simp only [pure_bind_ok]
    rw [store_of_lt' _ (by rw [hw.reference]; exact hj), ok_bind, store_of_lt' _ (by rw [hw.c]; exact hj), ok_bind,
      store_of_lt' _ (by rw [hw.cold]; exact hj), ok_bind, store_of_lt' _ (by rw [hw.pa]; exact hj), ok_bind]
    exact ⟨_, rfl⟩

theorem Sound.rebase_ok : ∃ e', e.rebase = .ok e' ∧ e'.Sound := by
  obtain ⟨e', hok⟩ : ∃ e', e.rebase = .ok e' := by
    have hr := hs.regular
    have hw := hs.work
    obtain ⟨e₁, hfold⟩ := hs.foldIncrements_ok
    obtain ⟨lambda, rfl, hsize, -⟩ := hr.of_foldIncrements hfold
    obtain ⟨z, hz, hzsize, -⟩ := hr.problem.shifted_ok (hsize.trans hr.size_lambda)
    obtain ⟨w, hcols, hfits⟩ := foldlM_carries (fun w => w.Fits e.problem.nrows e.problem.ncols)
      (l := List.range e.problem.ncols) (b := { e.work with reference := z }) (f := e.rebaseColumn)
      ⟨hzsize, hw.c, hw.cold, hw.pa, hw.rhs, hw.fwd, hw.u, hw.t⟩ fun j hj w hw => by
        obtain ⟨w', hw'⟩ := hs.rebaseColumn_ok hw (List.mem_range.1 hj)
        exact ⟨w', hw', fits_of_rebaseColumn hw hw'⟩
    obtain ⟨rhs, hrows, -⟩ := foldlM_carries (fun rhs : Array K => rhs.size = e.problem.nrows) hfits.rhs
      (l := List.range e.problem.nrows) (f := fun rhs i => do store rhs i (← e.rhsEntry w.reference i))
      fun i hi rhs hsize => by
        have hi := List.mem_range.1 hi
        exact ⟨_, bind_eq_ok_iff.2 ⟨_, hr.of_rhsEntry hfits.reference hi, store_of_lt' _ (hsize ▸ hi)⟩,
          by rw [Array.size_setIfInBounds, hsize]⟩
    exact ⟨_, bind_eq_ok_iff.2 ⟨_, hfold, bind_eq_ok_iff.2 ⟨z, hz, bind_eq_ok_iff.2 ⟨w, hcols,
      bind_eq_ok_iff.2 ⟨rhs, hrows, rfl⟩⟩⟩⟩⟩
  exact ⟨e', hok, hs.of_rebase hok⟩

end Requests

end Engine

end PolyProjection
