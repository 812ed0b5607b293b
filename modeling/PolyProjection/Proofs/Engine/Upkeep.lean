import Mathlib
import PolyProjection.Proofs.Engine.Gradient
import PolyProjection.Proofs.Engine.Replay
import PolyProjection.Proofs.Engine.Run

/-! What a state owes the factor. A commit leaves nothing noted, and whatever changes neither the working set nor the log
owes nothing after it either; the next commit then does nothing. -/

namespace PolyProjection

set_option linter.unusedSectionVars false

variable {K : Type} [Field K] [LinearOrder K] [IsStrictOrderedRing K]

namespace LineSearch

variable {s s' : LineSearch K}

theorem Finishes.engine_of_unchanged {flag : LineFlag} (hf : Finishes s flag s') (hunchanged : s'.changed = false) :
    s'.engine = s.engine := by
  cases hf with
  | full _ => rfl
  | walk hwalks hends =>
      rename_i s₁
      have hsame : s'.changed = s₁.changed := by cases hends <;> rfl
      have hstart : s₁ = s := by
        refine hwalks.eq_or_changed.resolve_right fun hchanged => ?_
        rw [← hsame, hunchanged] at hchanged
        cases hchanged
      rw [hends.engine, hstart]

end LineSearch

namespace Engine

/-- No change of the working set is noted, and there is a factor. -/
structure Settled (e : Engine K) : Prop where
  log : e.log = .empty
  dropped : e.set.dropped = #[]
  factored : e.flops.factored = true

/-- Two engines with the same working set, the same notes for the factor and the same counts of what was done to the
factor and of what left the working set. -/
structure Untouched (e e' : Engine K) : Prop where
  set : e'.set = e.set
  log : e'.log = e.log
  flops : e'.flops = e.flops
  factorizations : e'.stats.factorizations = e.stats.factorizations
  updates : e'.stats.updates = e.stats.updates
  rowsDropped : e'.stats.rowsDropped = e.stats.rowsDropped
  colsFreed : e'.stats.colsFreed = e.stats.colsFreed

variable {e e' e'' : Engine K} {s : Fill} {free act : ℕ → Bool} {rows cols : IndexRange} {out : LineOutcome K}
  {job job' : Job} {jobs jobs' : List Job} {isPartial refactored : Bool}

theorem Untouched.trans (h : Untouched e e') (h' : Untouched e' e'') : Untouched e e'' where
  set := h'.set.trans h.set
  log := h'.log.trans h.log
  flops := h'.flops.trans h.flops
  factorizations := h'.factorizations.trans h.factorizations
  updates := h'.updates.trans h.updates
  rowsDropped := h'.rowsDropped.trans h.rowsDropped
  colsFreed := h'.colsFreed.trans h.colsFreed

theorem Untouched.settled (h : Untouched e e') (hs : e.Settled) : e'.Settled where
  log := h.log.trans hs.log
  dropped := h.set ▸ hs.dropped
  factored := h.flops ▸ hs.factored

theorem Aside.untouched (h : Aside e e') : Untouched e e' := by
  obtain ⟨⟨_, _, _, _, _, rfl⟩, hfactorizations, hupdates, hdropped, hfreed⟩ := h
  exact ⟨rfl, rfl, rfl, hfactorizations, hupdates, hdropped, hfreed⟩

theorem Rebased.untouched (h : Rebased e e') : Untouched e e' := by
  rw [h.form]
  exact ⟨rfl, rfl, rfl, rfl, rfl, rfl, rfl⟩

section Commit

/-- A commit with nothing noted does nothing. -/
theorem Settled.commit_ok (h : e.Settled) (isPartial : Bool) : e.commit isPartial = .ok (false, e) := by
  have hsame : e.logDrops = e := by
    rw [logDrops, h.dropped, Array.append_empty, ← h.dropped]
  have hnone : (e.logDrops.log.size == 0 && e.logDrops.flops.factored) = true := by
    rw [hsame, h.log, h.factored]
    rfl
  have hok : e.commit isPartial = .ok (false, e.logDrops) := if_pos hnone
  rw [hok, hsame]

end Commit

section Work

theorem untouched_of_solveJob (hok : e.solveJob job = .ok e') : Untouched e e' := by
  unfold solveJob at hok
  simp only [bind_eq_ok_iff, pure_eq_ok_iff] at hok
  obtain ⟨_, -, _, -, _, -, _, -, rfl⟩ := hok
  exact ⟨rfl, rfl, rfl, rfl, rfl, rfl, rfl⟩

/-- A search without an event only moves along its direction. -/
theorem Searched.untouched (h : e.Searched rows cols out e') (hunchanged : out.changed = false) : Untouched e e' := by
  cases h with
  | flat hd _ =>
      obtain ⟨pa, rfl, -⟩ := hd
      exact ⟨rfl, rfl, rfl, rfl, rfl, rfl, rfl⟩
  | moved hd _ hc hfinishes hadvanced =>
      rw [hfinishes.engine_of_unchanged hunchanged] at hadvanced
      obtain ⟨pa, rfl, -⟩ := hd
      obtain ⟨heap, rfl, -⟩ := hc
      obtain ⟨dlambda, c, rfl, -⟩ := hadvanced
      exact ⟨rfl, rfl, rfl, rfl, rfl, rfl, rfl⟩

end Work

end Engine

end PolyProjection
