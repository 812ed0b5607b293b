import Mathlib
import PolyProjection.Engine.Commit
import PolyProjection.Proofs.Engine.Basic

/-! What a commit does to an engine. Each logged change is carried out on the factor or passed over; everything
else stays as it is, and nothing is left in the logs. -/

namespace PolyProjection.Engine

set_option linter.unusedSectionVars false

variable {K : Type} [Field K] [LinearOrder K] [IsStrictOrderedRing K]

variable {e e' : Engine K} {r r' : Replay K} {i j : Nat}

namespace Replay

/-- Two tests come before a change: it is carried out, or all stays as it is. -/
theorem of_tests {β : Type} {g : Bool → Bool → Bool} {x y : Checked Bool} {act : Checked β} {b₀ b₁ : β}
    (hok : (do if g (← x) (← y) then act else return b₀) = .ok b₁) :
    (∃ b c, x = .ok b ∧ y = .ok c ∧ g b c = true ∧ act = .ok b₁) ∨
      ∃ b c, x = .ok b ∧ y = .ok c ∧ g b c = false ∧ b₁ = b₀ := by
  simp only [bind_eq_ok_iff] at hok
  obtain ⟨b, hb, c, hc, hok⟩ := hok
  split_ifs at hok with hbc
  · exact .inl ⟨b, c, hb, hc, hbc, hok⟩
  · rw [pure_eq_ok_iff] at hok
    exact .inr ⟨b, c, hb, hc, eq_false_of_ne_true hbc, hok.symm⟩

/-- A bound column that the factor holds is taken out of it. -/
theorem of_bindColumn (hok : r.bindColumn j = .ok r') :
    (∃ change inFactor, fetch r.engine.inFactor j = .ok true ∧ r.engine.set.isFree j = .ok false ∧
      r.engine.factor.downdate r.engine.problem.a j = .ok change ∧
      store r.engine.inFactor j false = .ok inFactor ∧
      r' = ⟨{ r.engine with factor := change.1, inFactor := inFactor }, r.flops + change.2, r.count + 1⟩) ∨
    ∃ b c, fetch r.engine.inFactor j = .ok b ∧ r.engine.set.isFree j = .ok c ∧ (b && !c) = false ∧ r' = r := by
  unfold bindColumn at hok
  rcases of_tests (g := fun b c => b && !c) hok with ⟨b, c, hb, hc, hbc, hact⟩ | hpassed
  · obtain ⟨rfl, rfl⟩ : b = true ∧ c = false := by simpa using hbc
    simp only [bind_eq_ok_iff, pure_eq_ok_iff] at hact
    obtain ⟨change, hchange, inFactor, hstore, rfl⟩ := hact
    exact .inl ⟨change, inFactor, hb, hc, hchange, hstore, rfl⟩
  · exact .inr hpassed

/-- A dropped row that the factor holds is taken out of it. -/
theorem of_deleteRow (hok : r.deleteRow i = .ok r') :
    (∃ change, fetch r.engine.factor.active i = .ok true ∧ r.engine.set.isRowActive i = .ok false ∧
      r.engine.factor.deleteRow i = .ok change ∧
      r' = ⟨{ r.engine with factor := change.1 }, r.flops + change.2, r.count + 1⟩) ∨
    ∃ b c, fetch r.engine.factor.active i = .ok b ∧ r.engine.set.isRowActive i = .ok c ∧ (b && !c) = false ∧
      r' = r := by
  unfold deleteRow at hok
  rcases of_tests (g := fun b c => b && !c) hok with ⟨b, c, hb, hc, hbc, hact⟩ | hpassed
  · obtain ⟨rfl, rfl⟩ : b = true ∧ c = false := by simpa using hbc
    simp only [bind_eq_ok_iff, pure_eq_ok_iff] at hact
    obtain ⟨change, hchange, rfl⟩ := hact
    exact .inl ⟨change, hb, hc, hchange, rfl⟩
  · exact .inr hpassed

/-- An active row that the factor does not hold is put into it. -/
theorem of_addRow (hok : r.addRow i = .ok r') :
    (∃ change, fetch r.engine.factor.active i = .ok false ∧ r.engine.set.isRowActive i = .ok true ∧
      r.engine.factor.addRow r.engine.problem.a r.engine.problem.aT r.engine.inFactor i = .ok change ∧
      r' = ⟨{ r.engine with factor := change.1 }, r.flops + change.2, r.count + 1⟩) ∨
    ∃ b c, fetch r.engine.factor.active i = .ok b ∧ r.engine.set.isRowActive i = .ok c ∧ (!b && c) = false ∧
      r' = r := by
  unfold addRow at hok
  rcases of_tests (g := fun b c => !b && c) hok with ⟨b, c, hb, hc, hbc, hact⟩ | hpassed
  · obtain ⟨rfl, rfl⟩ : b = false ∧ c = true := by simpa using hbc
    simp only [bind_eq_ok_iff, pure_eq_ok_iff] at hact
    obtain ⟨change, hchange, rfl⟩ := hact
    exact .inl ⟨change, hb, hc, hchange, rfl⟩
  · exact .inr hpassed

/-- A free column that the factor does not hold is put into it. -/
theorem of_freeColumn (hok : r.freeColumn j = .ok r') :
    (∃ change inFactor, fetch r.engine.inFactor j = .ok false ∧ r.engine.set.isFree j = .ok true ∧
      r.engine.factor.update r.engine.problem.a j = .ok change ∧
      store r.engine.inFactor j true = .ok inFactor ∧
      r' = ⟨{ r.engine with factor := change.1, inFactor := inFactor }, r.flops + change.2, r.count + 1⟩) ∨
    ∃ b c, fetch r.engine.inFactor j = .ok b ∧ r.engine.set.isFree j = .ok c ∧ (!b && c) = false ∧ r' = r := by
  unfold freeColumn at hok
  rcases of_tests (g := fun b c => !b && c) hok with ⟨b, c, hb, hc, hbc, hact⟩ | hpassed
  · obtain ⟨rfl, rfl⟩ : b = false ∧ c = true := by simpa using hbc
    simp only [bind_eq_ok_iff, pure_eq_ok_iff] at hact
    obtain ⟨change, hchange, inFactor, hstore, rfl⟩ := hact
    exact .inl ⟨change, inFactor, hb, hc, hchange, hstore, rfl⟩
  · exact .inr hpassed

/-- The replay of any of the logs changes the factor and the mask of its columns only. -/
theorem factor_of_foldlM {f : Replay K → Nat → Checked (Replay K)} {log : Array Nat}
    (step : ∀ r r' i, f r i = .ok r' →
      ∃ factor inFactor, r'.engine = { r.engine with factor := factor, inFactor := inFactor })
    (hok : log.foldlM f r = .ok r') :
    ∃ factor inFactor, r'.engine = { r.engine with factor := factor, inFactor := inFactor } := by
  rw [← Array.foldlM_toList] at hok
  refine foldlM_keeps (fun r' => ∃ factor inFactor,
    r'.engine = { r.engine with factor := factor, inFactor := inFactor }) hok ⟨_, _, rfl⟩ fun i _ r₁ r₂ hr hstep => ?_
  obtain ⟨factor, inFactor, h₁⟩ := hr
  obtain ⟨factor', inFactor', h₂⟩ := step r₁ r₂ i hstep
  exact ⟨factor', inFactor', by rw [h₂, h₁]⟩

end Replay

theorem of_refactor (hok : e.refactor = .ok e') :
    ∃ free active change, (List.range e.problem.ncols).mapM e.set.isFree = .ok free ∧
      (List.range e.problem.nrows).mapM e.set.isRowActive = .ok active ∧
      e.factor.factorize e.problem.a e.problem.aT free.toArray active.toArray e.sigma = .ok change ∧
      ∃ flops : FactorFlops, Quiet { e with
        factor := change.1
        inFactor := free.toArray
        flops := e.flops.recordRefactor flops change.1.liveNnz } e' := by
  unfold refactor at hok
  simp only [bind_eq_ok_iff, pure_eq_ok_iff] at hok
  obtain ⟨free, hfree, active, hactive, change, hchange, rfl⟩ := hok
  exact ⟨free, active, change, hfree, hactive, hchange, _, _, _, _, _, _, rfl⟩

theorem of_applyUpdates {isPartial : Bool} (hok : e.applyUpdates isPartial = .ok e') :
    ∃ r₁ r₂ r₃ r₄ : Replay K, e.log.colsBound.foldlM Replay.bindColumn ⟨e, 0, 0⟩ = .ok r₁ ∧
      e.log.rowsDeleted.foldlM Replay.deleteRow r₁ = .ok r₂ ∧ e.log.rowsAdded.foldlM Replay.addRow r₂ = .ok r₃ ∧
      e.log.colsFreed.foldlM Replay.freeColumn r₃ = .ok r₄ ∧ ∃ flops,
        Quiet { r₄.engine with flops := r₄.engine.flops.recordUpdate flops r₄.count isPartial } e' := by
  unfold applyUpdates at hok
  simp only [bind_eq_ok_iff, pure_eq_ok_iff] at hok
  obtain ⟨r₁, h₁, r₂, h₂, r₃, h₃, r₄, h₄, rfl⟩ := hok
  exact ⟨r₁, r₂, r₃, r₄, h₁, h₂, h₃, h₄, _, _, _, _, _, _, rfl⟩

theorem sameState_of_refactor (hok : e.refactor = .ok e') : SameState e e' := by
  obtain ⟨_, _, _, -, -, -, _, hquiet⟩ := of_refactor hok
  refine SameState.trans ?_ hquiet.sameState
  exact ⟨rfl, rfl, rfl, ⟨_, rfl⟩, rfl, rfl, rfl, rfl, rfl, rfl⟩

/-- The replay of a log only changes the factor and its mask. -/
theorem Replay.of_replays {r₁ r₂ r₃ r₄ : Replay K} (h₁ : e.log.colsBound.foldlM Replay.bindColumn ⟨e, 0, 0⟩ = .ok r₁)
    (h₂ : e.log.rowsDeleted.foldlM Replay.deleteRow r₁ = .ok r₂) (h₃ : e.log.rowsAdded.foldlM Replay.addRow r₂ = .ok r₃)
    (h₄ : e.log.colsFreed.foldlM Replay.freeColumn r₃ = .ok r₄) :
    ∃ factor inFactor, r₄.engine = { e with factor := factor, inFactor := inFactor } := by
  obtain ⟨_, _, hr₁⟩ := Replay.factor_of_foldlM (fun r r' j hstep => by
    rcases Replay.of_bindColumn hstep with ⟨_, _, -, -, -, -, rfl⟩ | ⟨_, _, -, -, -, rfl⟩ <;> exact ⟨_, _, rfl⟩) h₁
  obtain ⟨_, _, hr₂⟩ := Replay.factor_of_foldlM (fun r r' i hstep => by
    rcases Replay.of_deleteRow hstep with ⟨_, -, -, -, rfl⟩ | ⟨_, _, -, -, -, rfl⟩ <;> exact ⟨_, _, rfl⟩) h₂
  obtain ⟨_, _, hr₃⟩ := Replay.factor_of_foldlM (fun r r' i hstep => by
    rcases Replay.of_addRow hstep with ⟨_, -, -, -, rfl⟩ | ⟨_, _, -, -, -, rfl⟩ <;> exact ⟨_, _, rfl⟩) h₃
  obtain ⟨_, _, hr₄⟩ := Replay.factor_of_foldlM (fun r r' j hstep => by
    rcases Replay.of_freeColumn hstep with ⟨_, _, -, -, -, -, rfl⟩ | ⟨_, _, -, -, -, rfl⟩ <;> exact ⟨_, _, rfl⟩) h₄
  exact ⟨_, _, by rw [hr₄, hr₃, hr₂, hr₁]⟩

theorem sameState_of_applyUpdates {isPartial : Bool} (hok : e.applyUpdates isPartial = .ok e') :
    SameState e e' := by
  obtain ⟨r₁, r₂, r₃, r₄, h₁, h₂, h₃, h₄, flops, hquiet⟩ := of_applyUpdates hok
  obtain ⟨_, _, hr₄⟩ := Replay.of_replays h₁ h₂ h₃ h₄
  refine SameState.trans ?_ hquiet.sameState
  rw [hr₄]
  exact ⟨rfl, rfl, rfl, ⟨_, rfl⟩, rfl, rfl, rfl, rfl, rfl, rfl⟩

/-- With the drops in the log, a commit has nothing to do, or it makes a fresh factor or replays the log. -/
theorem of_commit_logged {isPartial refactored : Bool} (hok : (do
      if e.log.size == 0 && e.flops.factored then return (false, e)
      let refactored := e.flops.shouldRefactor e.set.activeCount e.log.size
      let (_, e) ←
        if refactored then e.timed "factor" fun e => return ((), ← e.refactor)
        else e.timed "update" fun e => return ((), ← e.applyUpdates isPartial)
      return (refactored, { e with log := .empty })) = .ok (refactored, e')) :
    e.log.size = 0 ∧ e.flops.factored = true ∧ refactored = false ∧ e' = e ∨
      (e.log.size ≠ 0 ∨ e.flops.factored = false) ∧ ∃ e₁ e₂, Quiet e e₁ ∧
        refactored = e.flops.shouldRefactor e.set.activeCount e.log.size ∧
        (refactored = true ∧ e₁.refactor = .ok e₂ ∨ refactored = false ∧ e₁.applyUpdates isPartial = .ok e₂) ∧
        Quiet { e₂ with log := .empty } e' := by
  by_cases hnone : (e.log.size == 0 && e.flops.factored) = true
  · rw [if_pos hnone, pure_eq_ok_iff, Prod.mk.injEq] at hok
    rw [Bool.and_eq_true, beq_iff_eq] at hnone
    exact .inl ⟨hnone.1, hnone.2, hok.1.symm, hok.2.symm⟩
  · rw [if_neg hnone] at hok
    rw [Bool.and_eq_true, beq_iff_eq, not_and_or, Bool.not_eq_true] at hnone
    refine .inr ⟨hnone, ?_⟩
    dsimp only at hok
    cases hb : e.flops.shouldRefactor e.set.activeCount e.log.size
    all_goals
      simp only [hb, if_true, Bool.false_eq_true, if_false, bind_eq_ok_iff, pure_eq_ok_iff, Prod.mk.injEq] at hok
      obtain ⟨⟨_, e₂⟩, htimed, rfl, rfl⟩ := hok
      obtain ⟨e₃, hact, rfl⟩ := of_timed htimed
      simp only [bind_eq_ok_iff, pure_eq_ok_iff, Prod.mk.injEq] at hact
      obtain ⟨e₄, hact, -, rfl⟩ := hact
    · exact ⟨_, _, ⟨_, _, _, _, _, rfl⟩, rfl, .inr ⟨rfl, hact⟩, ⟨_, _, _, _, _, rfl⟩⟩
    · exact ⟨_, _, ⟨_, _, _, _, _, rfl⟩, rfl, .inl ⟨rfl, hact⟩, ⟨_, _, _, _, _, rfl⟩⟩

/-- A commit first logs the dropped rows. -/
theorem of_commit {isPartial refactored : Bool} (hok : e.commit isPartial = .ok (refactored, e')) :
    ∃ e₁, e₁ = { e with
      set := { e.set with dropped := #[] }
      log := { e.log with rowsDeleted := e.log.rowsDeleted ++ e.set.dropped } } ∧
    (e₁.log.size = 0 ∧ e₁.flops.factored = true ∧ refactored = false ∧ e' = e₁ ∨
      (e₁.log.size ≠ 0 ∨ e₁.flops.factored = false) ∧ ∃ e₂ e₃, Quiet e₁ e₂ ∧
        refactored = e₁.flops.shouldRefactor e₁.set.activeCount e₁.log.size ∧
        (refactored = true ∧ e₂.refactor = .ok e₃ ∨ refactored = false ∧ e₂.applyUpdates isPartial = .ok e₃) ∧
        Quiet { e₃ with log := .empty } e') :=
  ⟨_, rfl, of_commit_logged hok⟩

theorem sameState_of_commit {isPartial refactored : Bool} (hok : e.commit isPartial = .ok (refactored, e')) :
    SameState e e' := by
  obtain ⟨e₁, rfl, hcases⟩ := of_commit hok
  have h₁ : SameState e { e with
      set := { e.set with dropped := #[] }
      log := { e.log with rowsDeleted := e.log.rowsDeleted ++ e.set.dropped } } :=
    ⟨rfl, rfl, rfl, ⟨_, rfl⟩, rfl, rfl, rfl, rfl, rfl, rfl⟩
  rcases hcases with ⟨-, -, -, rfl⟩ | ⟨-, e₂, e₃, hquiet, -, hdone, hquiet'⟩
  · exact h₁
  · have h₃ : SameState e₂ e₃ := by
      rcases hdone with ⟨-, hdone⟩ | ⟨-, hdone⟩
      · exact sameState_of_refactor hdone
      · exact sameState_of_applyUpdates hdone
    have h₄ : SameState e₃ { e₃ with log := .empty } :=
      ⟨rfl, rfl, rfl, ⟨_, rfl⟩, rfl, rfl, rfl, rfl, rfl, rfl⟩
    exact h₁.trans (hquiet.sameState.trans (h₃.trans (h₄.trans hquiet'.sameState)))

end PolyProjection.Engine
