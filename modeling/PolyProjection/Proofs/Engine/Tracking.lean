import Mathlib
import PolyProjection.Proofs.Engine.History
import PolyProjection.Proofs.Factor.Steps

/-! The factor and the working set. Every row and column whose status the factor does not know of is logged, whatever
the order of the changes was, so that a replay of the logs leads to the same factor as a fresh factorization. -/

namespace PolyProjection

set_option linter.unusedSectionVars false

variable {K : Type} [Field K] [LinearOrder K] [IsStrictOrderedRing K]

/-- A loop over a log that changes one entry of a mask in each round, and that a second change of an entry makes no
difference to. -/
theorem foldlM_mask {σ : Type} {step : σ → ℕ → Checked σ} (P : (ℕ → Bool) → σ → Prop) (change : ℕ → Bool → Bool)
    (log : Array ℕ) (hidem : ∀ k b, change k (change k b) = change k b) {mask : ℕ → Bool} {r : σ} (hr : P mask r)
    (hstep : ∀ k ∈ log, ∀ mask r, P mask r →
      ∃ r', step r k = .ok r' ∧ P (Function.update mask k (change k (mask k))) r') :
    ∃ r', log.foldlM step r = .ok r' ∧ P (fun k => if k ∈ log then change k (mask k) else mask k) r' := by
  rw [← Array.foldlM_toList]
  obtain ⟨r', hok, hP⟩ := foldlM_succeeds (f := step) (l := log.toList)
    (fun done r => P (fun k => if k ∈ done then change k (mask k) else mask k) r)
    (by simpa using hr) (by
      intro done k rest r hlog hr
      obtain ⟨r', hok, hP⟩ := hstep k (Array.mem_def.2 (by rw [hlog]; simp)) _ r hr
      refine ⟨r', hok, ?_⟩
      have hmask : (fun i => if i ∈ done ++ [k] then change i (mask i) else mask i) =
          Function.update (fun i => if i ∈ done then change i (mask i) else mask i) k
            (change k (if k ∈ done then change k (mask k) else mask k)) := by
        funext i
        by_cases hi : i = k
        · subst hi
          rw [Function.update_self, if_pos (by simp)]
          split_ifs
          · exact (hidem i _).symm
          · rfl
        · rw [Function.update_of_ne hi]
          simp [hi]
      rw [hmask]
      exact hP)
  exact ⟨r', hok, by simpa only [Array.mem_def] using hP⟩

namespace Engine

/-- The kinds of changes of the working set. -/
inductive Change where
  | colBound
  | colFreed
  | rowAdded
  | rowDeleted

variable {s : Fill} {free act : ℕ → Bool} {e e' e'' : Engine K} {i j k : ℕ} {isPartial refactored : Bool}

/-- The working set has row or column `k` as the change leaves it. -/
def Shows (e : Engine K) : Change → ℕ → Prop
  | .colBound, k => e.set.colAt k ≠ .free
  | .colFreed, k => e.set.colAt k = .free
  | .rowAdded, k => (e.set.rowAt k).isActive = true
  | .rowDeleted, k => (e.set.rowAt k).isActive = false

/-- The change of row or column `k` is noted. -/
def Logs (e : Engine K) : Change → ℕ → Prop
  | .colBound, k => k ∈ e.log.colsBound
  | .colFreed, k => k ∈ e.log.colsFreed
  | .rowAdded, k => k ∈ e.log.rowsAdded
  | .rowDeleted, k => k ∈ e.log.rowsDeleted ∨ k ∈ e.set.dropped

/-- Masks of columns and rows have row or column `k` as the change leaves it. -/
def Holds (free act : ℕ → Bool) : Change → ℕ → Prop
  | .colBound, k => free k = false
  | .colFreed, k => free k = true
  | .rowAdded, k => act k = true
  | .rowDeleted, k => act k = false

/-- The number of rows or columns, whichever the change is about. -/
def limit (e : Engine K) : Change → ℕ
  | .colBound => e.problem.ncols
  | .colFreed => e.problem.ncols
  | .rowAdded => e.problem.nrows
  | .rowDeleted => e.problem.nrows

/-- The factor holds the columns and the rows of two masks, on the pattern `s`, and where the working set differs from
them, that is noted. Before the first factorization the factor has no values yet. -/
structure Tracks (s : Fill) (free act : ℕ → Bool) (e : Engine K) : Prop where
  covers : s.Covers e.problem.a
  sigma_pos : 0 < e.sigma
  inFactor : e.inFactor = table e.problem.ncols free
  factor : ∃ l d sigma, e.factor = s.factor act l d sigma (fun _ => 0) fun _ => 0
  factored : e.flops.factored = true → e.factor = s.canonical e.problem.a free act e.sigma
  logged : ∀ c k, e.Shows c k → Holds free act c k ∨ e.Logs c k
  in_range : ∀ c k, e.Logs c k → k < e.limit c

/-- A step that leaves the factor and its masks alone. -/
structure KeepsFactor (e e' : Engine K) : Prop where
  problem : e'.problem = e.problem
  sigma : e'.sigma = e.sigma
  inFactor : e'.inFactor = e.inFactor
  factor : e'.factor = e.factor
  flops : e'.flops = e.flops

/-- A step that leaves the factor alone and notes what it does to the working set. -/
structure Noted (e e' : Engine K) : Prop extends KeepsFactor e e' where
  logged : ∀ c k, e'.Shows c k → e.Shows c k ∨ e'.Logs c k
  keeps : ∀ c k, e.Logs c k → e'.Logs c k
  in_range : ∀ c k, e'.Logs c k → e.Logs c k ∨ k < e.limit c

theorem limit_congr (h : e'.problem = e.problem) : e'.limit = e.limit := by
  funext c
  cases c <;> simp only [limit, h]

theorem Tracks.of_noted (h : Tracks s free act e) (hn : Noted e e') : Tracks s free act e' where
  covers := by
    rw [hn.problem]
    exact h.covers
  sigma_pos := by
    rw [hn.sigma]
    exact h.sigma_pos
  inFactor := by
    rw [hn.inFactor, hn.problem]
    exact h.inFactor
  factor := by
    rw [hn.factor]
    exact h.factor
  factored := by
    rw [hn.flops, hn.factor, hn.problem, hn.sigma]
    exact h.factored
  logged := fun c k hshows => by
    rcases hn.logged c k hshows with hshows | hlogs
    · exact (h.logged c k hshows).imp_right (hn.keeps c k)
    · exact Or.inr hlogs
  in_range := fun c k hlogs => by
    rw [limit_congr hn.problem]
    exact (hn.in_range c k hlogs).elim (h.in_range c k) id

/-- A step that notes nothing must not change whether a row is active or a column free. -/
theorem KeepsFactor.noted (h : KeepsFactor e e') (hlogs : ∀ c k, e'.Logs c k ↔ e.Logs c k)
    (hshows : ∀ c k, e'.Shows c k → e.Shows c k) : Noted e e' :=
  ⟨h, fun c k hk => Or.inl (hshows c k hk), fun c k => (hlogs c k).2, fun c k hk => Or.inl ((hlogs c k).1 hk)⟩

/-- A step that notes one change of one row or column may make it. -/
theorem KeepsFactor.noted_one (h : KeepsFactor e e') (kind : Change) {i : ℕ} (hlt : i < e.limit kind)
    (hlogs : ∀ c k, e'.Logs c k ↔ e.Logs c k ∨ c = kind ∧ k = i)
    (hshows : ∀ c k, e'.Shows c k → e.Shows c k ∨ c = kind ∧ k = i) : Noted e e' := by
  refine ⟨h, fun c k hk => ?_, fun c k hk => (hlogs c k).2 (Or.inl hk), fun c k hk => ?_⟩
  · rcases hshows c k hk with hk | hk
    · exact Or.inl hk
    · exact Or.inr ((hlogs c k).2 (Or.inr hk))
  · rcases (hlogs c k).1 hk with hk | ⟨rfl, rfl⟩
    · exact Or.inl hk
    · exact Or.inr hlt

/-- A step that changes neither the working set nor the logs. -/
theorem KeepsFactor.noted_of_eq (h : KeepsFactor e e') (hset : e'.set = e.set) (hlog : e'.log = e.log) :
    Noted e e' := by
  refine h.noted (fun c k => ?_) fun c k => ?_
  · cases c <;> simp only [Logs, hset, hlog]
  · cases c <;> simp only [Shows, hset] <;> exact id

theorem Quiet.noted (h : Quiet e e') : Noted e e' := by
  obtain ⟨_, _, _, _, _, rfl⟩ := h
  exact KeepsFactor.noted_of_eq ⟨rfl, rfl, rfl, rfl, rfl⟩ rfl rfl

theorem Rebased.noted (h : Rebased e e') : Noted e e' := by
  rw [h.form]
  exact KeepsFactor.noted_of_eq ⟨rfl, rfl, rfl, rfl, rfl⟩ rfl rfl

theorem RowAdded.noted (h : e.Regular) {st : RowStatus} (ha : RowAdded e e' i st) : Noted e e' := by
  have hframe : KeepsFactor e e' ∧ e'.log = { e.log with rowsAdded := e.log.rowsAdded.push i } ∧
      e'.set.dropped = e.set.dropped := by
    obtain ⟨set, rows, -, rfl, rfl⟩ := ha.eq
    exact ⟨⟨rfl, rfl, rfl, rfl, rfl⟩, rfl, rfl⟩
  obtain ⟨hkeeps, hlog, hdropped⟩ := hframe
  refine hkeeps.noted_one .rowAdded ha.lt (fun c k => ?_) fun c k => ?_
  · cases c <;> simp [Logs, hlog, hdropped]
  · cases c <;> simp only [Shows, ha.colAt, ha.rowAt h]
    · exact Or.inl
    · exact Or.inl
    · split_ifs with hk
      · exact fun _ => Or.inr ⟨trivial, hk⟩
      · exact Or.inl
    · split_ifs
      · rw [ha.active]
        exact fun hfalse => Bool.noConfusion hfalse
      · exact Or.inl

/-- A column that is held already only changes sides, which the factor need not know of. -/
theorem ColumnBound.noted (h : e.Regular) {side : Side} (hb : ColumnBound e e' j side) : Noted e e' := by
  have hside : side.columnStatus ≠ .free := by cases side <;> exact ColumnStatus.noConfusion
  obtain ⟨bound, free, freePos, hset⟩ := hb.set_eq
  have hframe : KeepsFactor e e' ∧ e'.log =
      if e.set.colAt j = .free then { e.log with colsBound := e.log.colsBound.push j } else e.log := by
    obtain ⟨_, _, _, _, -, -, rfl⟩ := hb.eq
    split_ifs <;> exact ⟨⟨rfl, rfl, rfl, rfl, rfl⟩, rfl⟩
  obtain ⟨hkeeps, hlog⟩ := hframe
  have hdropped : e'.set.dropped = e.set.dropped := by rw [hset]
  by_cases hfree : e.set.colAt j = .free
  · rw [if_pos hfree] at hlog
    refine hkeeps.noted_one .colBound hb.lt (fun c k => ?_) fun c k => ?_
    · cases c <;> simp [Logs, hlog, hdropped]
    · cases c <;> simp only [Shows, hb.colAt h, hb.rowAt]
      · split_ifs with hk
        · exact fun _ => Or.inr ⟨trivial, hk⟩
        · exact Or.inl
      · split_ifs
        · exact fun hfalse => absurd hfalse hside
        · exact Or.inl
      · exact Or.inl
      · exact Or.inl
  · rw [if_neg hfree] at hlog
    refine hkeeps.noted (fun c k => ?_) fun c k => ?_
    · cases c <;> simp only [Logs, hlog, hdropped]
    · cases c <;> simp only [Shows, hb.colAt h, hb.rowAt]
      · split_ifs with hk
        · exact fun _ => hk ▸ hfree
        · exact id
      · split_ifs
        · exact fun hfalse => absurd hfalse hside
        · exact id
      · exact id
      · exact id

/-- A released column is noted, whether on request or in a search. -/
theorem noted_of_release (hkeeps : KeepsFactor e e') (hj : j < e.problem.ncols)
    (hlog : e'.log = { e.log with colsFreed := e.log.colsFreed.push j }) (hdropped : e'.set.dropped = e.set.dropped)
    (hrow : ∀ i, e'.set.rowAt i = e.set.rowAt i)
    (hcol : ∀ k, e'.set.colAt k = if k = j then .free else e.set.colAt k) : Noted e e' := by
  refine hkeeps.noted_one .colFreed hj (fun c k => ?_) fun c k => ?_
  · cases c <;> simp [Logs, hlog, hdropped]
  · cases c <;> simp only [Shows, hcol, hrow]
    · split_ifs
      · exact fun hfalse => absurd rfl hfalse
      · exact Or.inl
    · split_ifs with hk
      · exact fun _ => Or.inr ⟨trivial, hk⟩
      · exact Or.inl
    · exact Or.inl
    · exact Or.inl

theorem ColumnReleased.noted (h : e.Regular) (hr : ColumnReleased e e' j) : Noted e e' := by
  have hcol := hr.colAt h
  have hrow := hr.rowAt
  have hlt := hr.lt
  obtain ⟨set, bound, free, freePos, -, rfl, rfl⟩ := hr.eq
  exact noted_of_release ⟨rfl, rfl, rfl, rfl, rfl⟩ hlt rfl rfl hrow hcol

end Engine

namespace LineSearch

variable {s s' : LineSearch K} {j k : ℕ} {delta : K}

theorem ColumnFreed.noted (h : s.engine.Regular) (hf : ColumnFreed s s' j) : s.engine.Noted s'.engine := by
  obtain ⟨bound, free, freePos, hset⟩ := hf.set
  refine Engine.noted_of_release ?_ hf.lt ?_ (by rw [hset]) hf.rowAt (hf.colAt h)
  · rw [hf.form]
    exact ⟨rfl, rfl, rfl, rfl, rfl⟩
  · rw [hf.form]

theorem RowDropped.noted (h : s.engine.Regular) (hd : RowDropped s s' k delta) : s.engine.Noted s'.engine := by
  obtain ⟨rows, hset⟩ := hd.set
  have hkeeps : s.engine.KeepsFactor s'.engine := by
    rw [hd.form]
    exact ⟨rfl, rfl, rfl, rfl, rfl⟩
  have hdropped : s'.engine.set.dropped = s.engine.set.dropped.push k := by rw [hset]
  refine hkeeps.noted_one .rowDeleted hd.lt (fun c i => ?_) fun c i => ?_
  · cases c <;> simp [Engine.Logs, hd.log, hdropped, or_assoc]
  · cases c <;> simp only [Engine.Shows, hd.colAt, hd.rowAt h]
    · exact Or.inl
    · exact Or.inl
    · split_ifs
      · exact fun hfalse => Bool.noConfusion hfalse
      · exact Or.inl
    · split_ifs with hi
      · exact fun _ => Or.inr ⟨trivial, hi⟩
      · exact Or.inl

end LineSearch

end PolyProjection
