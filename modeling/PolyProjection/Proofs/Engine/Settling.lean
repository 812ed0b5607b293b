import Mathlib
import PolyProjection.Proofs.Engine.Stationary
import PolyProjection.Proofs.Layers

/-! What a run leaves behind. Nothing is noted for the factor, and if the solution has been found, the layers of the rows
that are still active reach the root within the sweeps that a run is allowed. -/

namespace PolyProjection

set_option linter.unusedSectionVars false

variable {K : Type} [Field K] [LinearOrder K] [IsStrictOrderedRing K]

namespace Engine

variable {e e' f g e₁ e₂ e₃ : Engine K} {s : Fill} {jobs : List Job} {refactored : Bool} {schedule : Schedule}
  {active : List ℕ} {status : Status} {status? : Option Status} {number done left sweeps n : ℕ}

theorem Stages.settled_end (hst : Stages s e e₁ e₂ e₃ jobs refactored status? schedule e') : e'.Settled := by
  apply hst.finished.untouched.settled
  exact ⟨hst.settled.log, hst.settled.dropped, hst.settled.factored⟩

/-- A sweep resolves no more than the next layer of the rows that are active at the end. -/
theorem Stages.resolvedAfter_subset (h : AtSweep s e) (hst : Stages s e e₁ e₂ e₃ jobs refactored status? schedule e')
    (hactive : active ⊆ e'.set.activeList)
    (hresolved : e.schedule.resolved e.problem.tree ⊆ e.problem.tree.layer active n) :
    e.problem.tree.resolvedAfter e₃.set.activeList (e.schedule.resolved e.problem.tree) (Schedule.drainedBlocks jobs) ⊆
      e.problem.tree.layer active (n + 1) := by
  have hset : e'.set = e₃.set := hst.finished.untouched.set
  apply h.accepted.tree.1.tested.resolvedAfter_subset_layer (congrArg ActiveSet.activeList hset ▸ hactive) hresolved
  rintro k ⟨g, hg, -, rfl⟩
  have hblocks := Schedule.blocks_of_reflagged hst.flags
  obtain ⟨job, hjob, hblock⟩ := List.mem_map.1 (hblocks ▸ List.mem_map_of_mem hg)
  exact (h.stands.ready_iff _).1 ⟨job, hjob, hblock⟩

/-- The sweeps of a run leave nothing noted, and they find the solution no earlier than the layers of the rows that are
active at the end reach the root. -/
theorem AtSweep.of_sweepsFrom (h : AtSweep s e) (hsettled : e.Settled)
    (hok : sweepsFrom done left e = .ok ((status, sweeps), e')) : e'.Settled ∧
      ∀ n, e.schedule.resolved e.problem.tree ⊆ e.problem.tree.layer e'.set.activeList n → status = .solutionFound →
        e.problem.tree.root ∈ e.problem.tree.layer e'.set.activeList (n + left) := by
  induction left generalizing done e with
  | zero =>
      rw [sweepsFrom, pure_eq_ok_iff, Prod.mk.injEq, Prod.mk.injEq] at hok
      obtain ⟨⟨rfl, -⟩, rfl⟩ := hok
      exact ⟨hsettled, fun _ _ hfound => by cases hfound⟩
  | succ left ih =>
      rw [sweepsFrom] at hok
      obtain ⟨⟨status?, g⟩, hsweep, hok⟩ := bind_eq_ok_iff.1 hok
      obtain ⟨status?, g, hok', hswept⟩ := h.sweep_ok (done + 1)
      obtain ⟨rfl, rfl⟩ := Prod.mk.inj (Except.ok.inj (hsweep.symm.trans hok'))
      obtain ⟨e₁, e₂, e₃, jobs, refactored, schedule, hst⟩ := h.of_sweep hsweep
      have hadvanced := hst.advanced
      cases status? with
      | none =>
          obtain ⟨hat, -⟩ := hswept.next rfl
          obtain ⟨hend, hreaches⟩ := ih hat hst.settled_end hok
          refine ⟨hend, fun n hresolved hfound => ?_⟩
          obtain ⟨_, _, _, hok'', hcarried, -⟩ := hat.sweepsFrom_ok (done + 1) left
          obtain ⟨-, rfl⟩ := Prod.mk.inj (Except.ok.inj (hok''.symm.trans hok))
          have hsubset := hst.resolvedAfter_subset h hcarried.activeList_subset hresolved
          cases hadvanced with
          | next _ hnext _ =>
              have hschedule : g.schedule = schedule := hst.finished.quiet.sameState.schedule
              rw [hnext.eq_resolved h.accepted.tree.1.tested, ← hschedule] at hsubset
              have hroot := hreaches (n + 1) (by rw [hswept.problem]; exact hsubset) hfound
              rw [hswept.problem] at hroot
              rw [Nat.add_comm left, ← Nat.add_assoc]
              exact hroot
      | some st =>
          rw [pure_eq_ok_iff, Prod.mk.injEq, Prod.mk.injEq] at hok
          obtain ⟨⟨rfl, -⟩, rfl⟩ := hok
          refine ⟨hst.settled_end, fun n hresolved hfound => ?_⟩
          subst hfound
          have hsubset := hst.resolvedAfter_subset h (List.Subset.refl _) hresolved
          apply BlockTree.layer_mono (Nat.add_le_add_left (Nat.succ_pos left) n)
          apply hsubset
          cases hadvanced with
          | found hroot => exact hroot.elim .drained And.right

/-- What a run leaves behind for the next one. -/
theorem Sound.run_settles (hp : e.problem.Accepted) (hs : e.Sound) (ht : Tracked s e)
    (hok : e.run = .ok (status, e')) : e'.Settled ∧ (status = .solutionFound →
      e.problem.tree.root ∈ e.problem.tree.layer e'.set.activeList e.settings.maxSweeps) := by
  obtain ⟨e₁, f, e₃, sweeps, hstart, hsweeps, hrebase, hend⟩ := Engine.of_run hok
  have hsame := hstart.quiet.sameState
  have hs₁ := hsame.sound hs
  obtain ⟨g₁, g₂, refactored, hrebase₁, hcommit, hcases⟩ := Engine.of_runSweeps hsweeps
  have hr₁ := hs₁.regular.of_rebase hrebase₁
  have ht₁ := (ht.of_noted hstart.quiet.noted).of_noted hr₁.noted
  have hc := (hs₁.of_rebase hrebase₁).of_commit ht₁ hcommit
  have hproblem : g₂.problem = e.problem := hc.state.problem.trans (hr₁.problem_eq.trans hsame.problem)
  have hsettings : g₂.settings = e.settings := hc.state.settings.trans (hr₁.settings_eq.trans hsame.settings)
  have hkept : Untouched e₃ { e₃ with x := e₃.work.reference } := ⟨rfl, rfl, rfl, rfl, rfl, rfl, rfl⟩
  have hfinish : f.Regular → Untouched f e' := fun hr =>
    (hr.of_rebase hrebase).untouched.trans (hkept.trans hend.untouched)
  have hs₂ := hc.sound
  rcases hcases with ⟨-, rfl, rfl⟩ | ⟨hsome, schedule, hseed, hswept⟩
  · exact ⟨(hfinish hs₂.regular).settled hc.settled, fun hfound => by cases hfound⟩
  · rw [hs₂.regular.set.activeCount_eq, ne_eq, List.length_eq_zero_iff] at hsome
    have hp₂ : g₂.problem.Accepted := hproblem.symm ▸ hp
    obtain ⟨_, hseed', hat⟩ := AtSweep.of_seed hp₂ hs₂ hc.tracked hc.solves hsome
    obtain rfl := Except.ok.inj (hseed.symm.trans hseed')
    obtain ⟨_, _, _, hok', hcarried, -⟩ := hat.sweepsFrom_ok 0 g₂.settings.maxSweeps
    obtain ⟨-, rfl⟩ := Prod.mk.inj (Except.ok.inj (hswept.symm.trans hok'))
    have hleft := hfinish hcarried.sound.regular
    obtain ⟨hsettled, hreaches⟩ := hat.of_sweepsFrom ⟨hc.settled.log, hc.settled.dropped, hc.settled.factored⟩ hswept
    refine ⟨hleft.settled hsettled, fun hfound => ?_⟩
    have hroot := hreaches 0 ?_ hfound
    · rw [congrArg ActiveSet.activeList hleft.set, ← hproblem, ← hsettings, ← Nat.zero_add g₂.settings.maxSweeps]
      exact hroot
    · have htree := hp₂.tree.1.tested
      obtain ⟨hstands, -⟩ := Schedule.Stands.of_seed htree (hs₂.lists hp₂) hsome hseed
      have hidle := hstands.eq_resolved htree
      dsimp only
      rw [← hidle]
      exact BlockTree.idle_mono hcarried.activeList_subset

end Engine

end PolyProjection
