import PolyProjection.Engine.State
import PolyProjection.Proofs.Checked

/-! How an engine is set up, over any scalars. The settings have to pass their check and the matrix has to give a
factor; everything else is the same for all problems. -/

namespace PolyProjection

variable {α : Type} [Scalar α] {p : Problem α} {settings : Settings α}

/-- The check of the settings passes if there is no bad value. -/
theorem Settings.validate_eq_ok_iff :
    settings.validate = .ok () ↔ ∀ verdict ∈ settings.verdicts, verdict.2 = true := by
  have hnone : settings.verdicts.find? (!·.2) = none ↔ ∀ verdict ∈ settings.verdicts, verdict.2 = true := by
    simp only [List.find?_eq_none, Bool.not_eq_true', Bool.not_eq_false]
  rw [← hnone, validate]
  cases settings.verdicts.find? (!·.2) <;> simp

namespace Engine

/-- The engine before any request, over a factor without values. -/
def fresh (p : Problem α) (settings : Settings α) (factor : LdlFactor α) : Engine α where
  problem := p
  settings := settings
  sigma := scaledSigma p.a settings
  set := .empty p.nrows p.ncols
  factor := factor
  inFactor := Array.replicate p.ncols true
  lambda := Array.replicate p.nrows 0
  dlambda := Array.replicate p.nrows 0
  x := p.y
  work := .zero p.nrows p.ncols
  heap := .empty (p.ncols + p.nrows)
  log := .empty
  flops := .empty
  schedule := .empty p.tree
  stats := .zero
  timers := .empty
  status := none
  output := .initial
  events := #[]

theorem create_eq_ok_iff {e : Engine α} : create p settings = .ok (.ok e) ↔ settings.validate = .ok () ∧
    ∃ factor, LdlFactor.ofMatrix p.a p.aT = .ok (.ok factor) ∧ e = fresh p settings factor := by
  unfold create
  cases settings.validate with
  | error cause => simp
  | ok _ =>
      cases LdlFactor.ofMatrix p.a p.aT with
      | error fault => simp
      | ok result =>
          cases result with
          | error cause => simp
          | ok factor =>
              simp only [ok_bind, pure_eq_ok_iff, Except.ok.injEq, true_and, exists_eq_left']
              exact eq_comm

end Engine

end PolyProjection
