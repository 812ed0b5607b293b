import Mathlib
import PolyProjection.Proofs.Engine.Sweeping

/-! The calls to an engine from outside. Each of them is carried out, and whatever their order the lists agree with the
statuses, the statuses with the bounds, and the counts with what is in the working set. -/

namespace PolyProjection

set_option linter.unusedSectionVars false

variable {K : Type} [Field K] [LinearOrder K] [IsStrictOrderedRing K]

namespace Engine

/-- A call to an engine. -/
inductive Call (K : Type) where
  | addRow (row : ℕ) (side : Side)
  | bindColumn (col : ℕ) (side : Side)
  | freeColumn (col : ℕ)
  | setDual (entries : List (ℕ × K))
  | run

/-- The answer to a call: whether a request was met, or how a run ended. -/
inductive Answer where
  | met (b : Bool)
  | written
  | ended (status : Status)

namespace Call

/-- The rows and columns that a call names exist. -/
def InRange (p : Problem K) : Call K → Prop
  | addRow i _ => i < p.nrows
  | bindColumn j _ => j < p.ncols
  | freeColumn j => j < p.ncols
  | setDual entries => ∀ x ∈ entries, x.1 < p.nrows
  | run => True

def make (e : Engine K) : Call K → Checked (Answer × Engine K)
  | addRow i side => do
    let (met, e) ← e.addRow i side
    return (.met met, e)
  | bindColumn j side => do
    let (met, e) ← e.bindColumn j side
    return (.met met, e)
  | freeColumn j => do
    let (met, e) ← e.freeColumn j
    return (.met met, e)
  | setDual entries => return (.written, ← e.setDual entries)
  | run => do
    let (status, e) ← e.run
    return (.ended status, e)

end Call

/-- The state after a number of calls. -/
def after (e : Engine K) (calls : List (Call K)) : Checked (Engine K) :=
  calls.foldlM (fun e call => return (← call.make e).2) e

/-- Every row that was added is active or was dropped, and every column that was bound is held or was freed. -/
def Tallied (e : Engine K) : Prop :=
  e.stats.rowsAdded = e.stats.rowsDropped + e.set.activeList.length ∧
    e.stats.colsBound = e.stats.colsFreed + e.set.heldList.length

variable {s : Fill} {e e' e'' : Engine K} {i j : ℕ} {side : Side} {b : Bool} {call : Call K} {p : Problem K}
  {settings : Settings K}

/-- What a call leaves behind. -/
structure Called (s : Fill) (e e' : Engine K) : Prop where
  problem : e'.problem = e.problem
  sound : e'.Sound
  tracked : Tracked s e'
  timers : Timers.Nests 2 e.timers e'.timers
  equality : ∀ i, e.set.rowAt i = .equality → e'.set.rowAt i = .equality
  tallied : e.Tallied → e'.Tallied

theorem Called.refl (hs : e.Sound) (ht : Tracked s e) : Called s e e :=
  ⟨rfl, hs, ht, Timers.nests_of_eq rfl, fun _ h => h, fun h => h⟩

theorem Called.trans (h : Called s e e') (h' : Called s e' e'') : Called s e e'' :=
  ⟨h'.problem.trans h.problem, h'.sound, h'.tracked, h.timers.trans h'.timers,
    fun i hi => h'.equality i (h.equality i hi), fun ht => h'.tallied (h.tallied ht)⟩

theorem Carried.called (h : Carried s 2 e e') : Called s e e' where
  problem := h.problem
  sound := h.sound
  tracked := h.tracked
  timers := h.timers
  equality i hi := by
    rcases h.row i with heq | ⟨-, -, hside⟩
    · rw [heq, hi]
    · rw [hi] at hside
      rcases hside with hside | hside <;> cases hside
  tallied ht := by
    have hadded := h.added
    have hbound := h.bound
    have hdropped := h.dropped
    have hfreed := h.freed
    obtain ⟨hrows, hcols⟩ := ht
    exact ⟨by omega, by omega⟩

theorem RowAdded.called {st : RowStatus} (hs : e.Sound) (ht : Tracked s e) (h : RowAdded e e' i st) : Called s e e' := by
  have hrow := h.rowAt hs.regular
  have hactive : e'.set.activeList.length = e.set.activeList.length + 1 := by
    refine ActiveSet.length_activeList_of_drop (i := i) (by rw [hrow, if_pos rfl]; exact h.active) fun k => ?_
    rw [hrow]
    split_ifs with hk
    · rw [hk, h.dropped]
    · rfl
  have hheld : e'.set.heldList = e.set.heldList ∧ e'.stats = { e.stats with rowsAdded := e.stats.rowsAdded + 1 } ∧
      e'.timers = e.timers := by
    obtain ⟨set, rows, -, hset, rfl⟩ := h.eq
    exact ⟨by rw [tell, hset]; rfl, rfl, rfl⟩
  obtain ⟨hheld, hstats, htimers⟩ := hheld
  refine ⟨h.problem_eq, h.sound hs, ht.of_noted (h.noted hs.regular), Timers.nests_of_eq htimers, fun k hk => ?_,
    fun htallied => ?_⟩
  · rw [hrow, if_neg fun hki => by rw [hki, h.dropped] at hk; cases hk]
    exact hk
  · obtain ⟨hrows, hcols⟩ := htallied
    rw [Tallied, hstats, hactive, hheld]
    exact ⟨by dsimp only; omega, hcols⟩

theorem ColumnBound.called (hs : e.Sound) (ht : Tracked s e) (h : ColumnBound e e' j side) : Called s e e' := by
  have hcol := h.colAt hs.regular
  have hrow := h.rowAt
  have hactive : e'.set.activeList = e.set.activeList ∧ e'.timers = e.timers ∧ e'.stats =
      if e.set.colAt j = .free then { e.stats with colsBound := e.stats.colsBound + 1 } else e.stats := by
    obtain ⟨set, bound, free, freePos, -, hset, rfl⟩ := h.eq
    split_ifs <;> exact ⟨by rw [tell, hset]; rfl, rfl, rfl⟩
  obtain ⟨hactive, htimers, hstats⟩ := hactive
  refine ⟨h.problem_eq, h.sound hs, ht.of_noted (h.noted hs.regular), Timers.nests_of_eq htimers, fun k hk => ?_,
    fun htallied => ?_⟩
  · rw [hrow]
    exact hk
  · obtain ⟨hrows, hcols⟩ := htallied
    rw [Tallied, hstats, hactive]
    split_ifs with hfree
    · have hheld : e'.set.heldList.length = e.set.heldList.length + 1 := by
        refine ActiveSet.length_heldList_of_free (j := j) ?_ fun k => ?_
        · rw [hcol, if_pos rfl]
          exact side.columnStatus_ne_free
        · rw [hcol]
          split_ifs with hk
          · rw [hk, hfree]
          · rfl
      exact ⟨hrows, by dsimp only; omega⟩
    · have hheld : e'.set.heldList.length = e.set.heldList.length := by
        refine List.Perm.length_eq ((List.perm_ext_iff_of_nodup e'.set.nodup_heldList e.set.nodup_heldList).2 fun k => ?_)
        rw [ActiveSet.mem_heldList, ActiveSet.mem_heldList, hcol]
        split_ifs with hk
        · rw [hk]
          exact iff_of_true side.columnStatus_ne_free hfree
        · rfl
      exact ⟨hrows, by omega⟩

theorem ColumnReleased.called (hs : e.Sound) (ht : Tracked s e) (hheld : e.set.colAt j ≠ .free)
    (h : ColumnReleased e e' j) : Called s e e' := by
  have hlength := ActiveSet.length_heldList_of_free hheld (h.colAt hs.regular)
  have hrest : e'.set.activeList = e.set.activeList ∧ e'.timers = e.timers ∧
      e'.stats = { e.stats with colsFreed := e.stats.colsFreed + 1 } := by
    obtain ⟨set, bound, free, freePos, -, hset, rfl⟩ := h.eq
    exact ⟨by rw [hset]; rfl, rfl, rfl⟩
  obtain ⟨hactive, htimers, hstats⟩ := hrest
  refine ⟨h.problem_eq, h.sound hs, ht.of_noted (h.noted hs.regular), Timers.nests_of_eq htimers, fun k hk => ?_,
    fun htallied => ?_⟩
  · rw [h.rowAt]
    exact hk
  · obtain ⟨hrows, hcols⟩ := htallied
    rw [Tallied, hstats, hactive]
    exact ⟨hrows, by dsimp only; omega⟩

theorem Called.of_events (h : Called s e e') (events : Array (Event K)) : Called s e { e' with events := events } :=
  ⟨h.problem, ⟨{ h.sound.regular with }, h.sound.work, h.sound.columns⟩,
    h.tracked.of_noted (Quiet.noted ⟨_, _, _, _, _, rfl⟩), h.timers, h.equality, h.tallied⟩

section Requests

variable (hs : e.Sound) (ht : Tracked s e)

include hs ht

theorem called_of_addRow (hok : e.addRow i side = .ok (b, e')) : Called s e e' ∧ (b = false → e' = e) := by
  rcases hs.regular.of_addRow hok with ⟨-, rfl⟩ | ⟨rfl, st, hadded⟩
  · exact ⟨Called.refl hs ht, fun _ => rfl⟩
  · exact ⟨hadded.called hs ht, by simp⟩

theorem called_of_bindColumn (hok : e.bindColumn j side = .ok (b, e')) : Called s e e' ∧ (b = false → e' = e) := by
  rcases hs.regular.of_bindColumn hok with ⟨-, rfl⟩ | ⟨rfl, hbound⟩
  · exact ⟨Called.refl hs ht, fun _ => rfl⟩
  · exact ⟨hbound.called hs ht, by simp⟩

theorem called_of_freeColumn (hj : j < e.problem.ncols) (hok : e.freeColumn j = .ok (b, e')) :
    Called s e e' ∧ (b = false → e' = e) := by
  by_cases hfree : e.set.colAt j = .free
  · rw [freeColumn, hs.isFree_ok hj, ok_bind, if_pos (by rw [hfree]; rfl), pure_eq_ok_iff, Prod.mk.injEq] at hok
    rw [← hok.2]
    exact ⟨Called.refl hs ht, fun _ => rfl⟩
  · rcases hs.regular.of_freeColumn hok with ⟨-, rfl⟩ | ⟨rfl, g, hreleased, rfl⟩
    · exact ⟨Called.refl hs ht, fun _ => rfl⟩
    · exact ⟨(hreleased.called hs ht hfree).of_events _, by simp⟩

theorem called_of_setDual {entries : List (ℕ × K)} (hentries : ∀ x ∈ entries, x.1 < e.problem.nrows) :
    ∃ e', e.setDual entries = .ok e' ∧ Called s e e' := by
  obtain ⟨e', hok, hs'⟩ := hs.setDual_ok hentries
  obtain ⟨lambda, rfl, -⟩ := of_setDual hok
  exact ⟨_, hok, rfl, hs', ht.of_noted (KeepsFactor.noted_of_eq ⟨rfl, rfl, rfl, rfl, rfl⟩ rfl rfl),
    Timers.nests_of_eq rfl, fun _ h => h, fun h => h⟩

/-- A call that names rows and columns of the problem is carried out; one that is not met changes nothing. -/
theorem Call.make_ok (hp : e.problem.Accepted) (hcall : call.InRange e.problem) :
    ∃ answer e', call.make e = .ok (answer, e') ∧ Called s e e' ∧ (answer = .met false → e' = e) := by
  cases call with
  | addRow i side =>
      obtain ⟨b, e', hok, -⟩ := hs.addRow_ok hcall side
      obtain ⟨hcalled, hsame⟩ := called_of_addRow hs ht hok
      exact ⟨.met b, e', by rw [make, hok]; rfl, hcalled, fun h => hsame (Answer.met.inj h)⟩
  | bindColumn j side =>
      obtain ⟨b, e', hok, -⟩ := hs.bindColumn_ok hcall side
      obtain ⟨hcalled, hsame⟩ := called_of_bindColumn hs ht hok
      exact ⟨.met b, e', by rw [make, hok]; rfl, hcalled, fun h => hsame (Answer.met.inj h)⟩
  | freeColumn j =>
      obtain ⟨b, e', hok, -⟩ := hs.freeColumn_ok hcall
      obtain ⟨hcalled, hsame⟩ := called_of_freeColumn hs ht hcall hok
      exact ⟨.met b, e', by rw [make, hok]; rfl, hcalled, fun h => hsame (Answer.met.inj h)⟩
  | setDual entries =>
      obtain ⟨e', hok, hcalled⟩ := called_of_setDual hs ht hcall
      exact ⟨.written, e', by rw [make, hok]; rfl, hcalled, by simp⟩
  | run =>
      obtain ⟨status, e', hok, hcarried, -⟩ := hs.run_ok hp ht
      exact ⟨.ended status, e', by rw [make, hok]; rfl, hcarried.called, by simp⟩

theorem after_ok (hp : e.problem.Accepted) {calls : List (Call K)} (hcalls : ∀ call ∈ calls, call.InRange e.problem) :
    ∃ e', e.after calls = .ok e' ∧ Called s e e' := by
  refine foldlM_carries (Called s e) (Called.refl hs ht) fun call hcall g hg => ?_
  have hrange : call.InRange g.problem := hg.problem ▸ hcalls call hcall
  obtain ⟨answer, g', hok, hcalled, -⟩ := Call.make_ok hg.sound hg.tracked (hg.problem ▸ hp) hrange
  exact ⟨g', by rw [hok]; rfl, hg.trans hcalled⟩

end Requests

/-- What can be seen of an engine after every call: its lists and statuses are consistent, the statuses suit the bounds of
the problem, and the counts make up what is in the working set. -/
structure Kept (p : Problem K) (e : Engine K) : Prop where
  consistent : e.set.isConsistent = .ok true
  equality_iff : ∀ i, (e.set.rowAt i).isActive = true → (e.set.rowAt i = .equality ↔ p.blAt i = p.buAt i)
  lower_row : ∀ i, e.set.rowAt i = .atLower → ∃ v, p.blAt i = .finite v
  upper_row : ∀ i, e.set.rowAt i = .atUpper → ∃ v, p.buAt i = .finite v
  lower_col : ∀ j, e.set.colAt j = .atLower → ∃ v, p.loAt j = .finite v
  upper_col : ∀ j, e.set.colAt j = .atUpper → ∃ v, p.hiAt j = .finite v
  rows_counted : e.stats.rowsAdded = e.stats.rowsDropped + e.set.activeCount
  cols_counted : e.stats.colsBound = e.stats.colsFreed + e.set.bound.size

theorem isPoint_of_isInterval {l u : Bound K} (h : l.isInterval u = true) : l.isPoint u = true ↔ l = u := by
  rw [isPoint_iff]
  refine ⟨?_, ?_⟩
  · rintro ⟨v, rfl, rfl⟩
    rfl
  · rintro rfl
    cases l with
    | negInf => cases h
    | finite v => exact ⟨v, rfl, rfl⟩
    | posInf => cases h

theorem Sound.kept (hs : e.Sound) (ht : e.Tallied) : Kept e.problem e where
  consistent := hs.consistent
  equality_iff i hact := by
    have hfits := hs.regular.rows_fit i
    rw [← isPoint_of_isInterval (hs.regular.problem.row_interval i (hs.regular.row_lt hact))]
    cases hst : e.set.rowAt i with
    | equality =>
        rw [hst] at hfits
        exact iff_of_true rfl hfits
    | atLower =>
        rw [hst] at hfits
        exact iff_of_false (by decide) (Bool.eq_false_iff.1 hfits.1)
    | atUpper =>
        rw [hst] at hfits
        exact iff_of_false (by decide) (Bool.eq_false_iff.1 hfits.1)
    | dropped =>
        rw [hst] at hact
        cases hact
  lower_row i hst := by
    have hfits := hs.regular.rows_fit i
    rw [hst] at hfits
    exact hfits.2
  upper_row i hst := by
    have hfits := hs.regular.rows_fit i
    rw [hst] at hfits
    exact hfits.2
  lower_col j hst := by
    have hfits := hs.regular.cols_fit j
    rwa [hst] at hfits
  upper_col j hst := by
    have hfits := hs.regular.cols_fit j
    rwa [hst] at hfits
  rows_counted := by rw [hs.regular.set.activeCount_eq, ht.1]
  cols_counted := by rw [hs.columns.size_bound hs.regular.set.size_colStatus, ht.2]

/-- A fresh engine has counted nothing, and nothing was timed. -/
theorem tallied_of_create (hok : create p settings = .ok (.ok e)) :
    e.Tallied ∧ e.timers = .empty := by
  obtain ⟨-, f, -, rfl⟩ := create_eq_ok_iff.1 hok
  refine ⟨⟨?_, ?_⟩, rfl⟩
  · rw [fresh, ActiveSet.activeList_empty]
    rfl
  · rw [fresh, ActiveSet.heldList_empty]
    rfl

/-- Any calls in any order are carried out. After each the engine is consistent, a request that is not met leaves it as it
is, and an equality row stays active. -/
theorem after_kept (hp : p.Accepted) (hok : create p settings = .ok (.ok e)) {calls : List (Call K)}
    (hcalls : ∀ call ∈ calls, call.InRange p) : ∃ e', e.after calls = .ok e' ∧ Kept p e' ∧
      (∀ call : Call K, call.InRange p → ∃ answer e'', call.make e' = .ok (answer, e'') ∧ Kept p e'' ∧
        (answer = .met false → e'' = e')) ∧
      ∀ more : List (Call K), (∀ call ∈ more, call.InRange p) → ∃ e'', e'.after more = .ok e'' ∧
        ∀ i, e'.set.rowAt i = .equality → e''.set.rowAt i = .equality := by
  obtain ⟨-, -, hproblem, -⟩ := of_create hp.wellPosed hok
  obtain ⟨e', hafter, hcalled⟩ := after_ok (sound_of_create hp.wellPosed hok) (tracked_of_create hp.wellPosed hok)
    (hproblem ▸ hp) (by rw [hproblem]; exact hcalls)
  have hproblem' : e'.problem = p := hcalled.problem.trans hproblem
  have htallied := hcalled.tallied (tallied_of_create hok).1
  refine ⟨e', hafter, hproblem' ▸ hcalled.sound.kept htallied, fun call hcall => ?_, fun more hmore => ?_⟩
  · have hrange : call.InRange e'.problem := hproblem' ▸ hcall
    obtain ⟨answer, e'', hmake, hnext, hsame⟩ := Call.make_ok hcalled.sound hcalled.tracked (hproblem' ▸ hp) hrange
    exact ⟨answer, e'', hmake, (hnext.problem.trans hproblem') ▸ hnext.sound.kept (hnext.tallied htallied), hsame⟩
  · obtain ⟨e'', hafter', hnext⟩ := after_ok hcalled.sound hcalled.tracked (hproblem' ▸ hp)
      (by rw [hproblem']; exact hmore)
    exact ⟨e'', hafter', hnext.equality⟩

/-- The row of `halfLine` is added and added again, its column cannot be bound, and the engine runs. -/
def callHalfLine : Checked (Problem ℚ × Engine ℚ × Engine ℚ) := do
  let p ← accepted Problem.halfLine
  let e ← accepted (create p plain)
  return (p, e, ← e.after [.addRow 0 .lower, .addRow 0 .upper, .bindColumn 0 .lower, .run])

theorem after_kept_halfLine : ∃ (p : Problem ℚ) (e e' : Engine ℚ), p.Accepted ∧ create p plain = .ok (.ok e) ∧
    e.after [.addRow 0 .lower, .addRow 0 .upper, .bindColumn 0 .lower, .run] = .ok e' ∧ e'.stats.rowsAdded = 1 ∧
    Kept p e' := by
  obtain ⟨⟨p, e, e'⟩, hrun, hcheck⟩ := exists_of_passes (x := callHalfLine)
    (f := fun r => r.2.2.stats.rowsAdded == 1 && r.1.nrows == 1 && r.1.ncols == 1) (by decide +kernel)
  unfold callHalfLine at hrun
  simp only [bind_eq_ok_iff, accepted_eq_ok_iff, pure_eq_ok_iff, Prod.mk.injEq] at hrun
  obtain ⟨p, hp, e, hcreate, e', hafter, rfl, rfl, rfl⟩ := hrun
  simp only [Bool.and_eq_true, beq_iff_eq] at hcheck
  have hcalls : ∀ call ∈ ([.addRow 0 .lower, .addRow 0 .upper, .bindColumn 0 .lower, .run] : List (Call ℚ)),
      call.InRange p := by
    simp [Call.InRange, hcheck.1.2, hcheck.2]
  obtain ⟨e'', hafter', hkept, -⟩ := after_kept (.create hp) hcreate hcalls
  have heq : e'' = e' := Except.ok.inj (hafter'.symm.trans hafter)
  exact ⟨p, e, e', .create hp, hcreate, hafter, hcheck.1.1, heq ▸ hkept⟩

end Engine

end PolyProjection
