import PolyProjection.Proofs.BlockTree
import PolyProjection.Schedule

/-! The jobs of a schedule. Each job that is queued, at first or in a later sweep, covers the subtree of its
block. -/

namespace PolyProjection

/-- The job has the rows and the columns of the subtree of its block. -/
def Job.Covers (t : BlockTree) (job : Job) : Prop :=
  t.subtreeRows job.block = .ok job.rows ∧ t.subtreeCols job.block = .ok job.cols

theorem BlockTree.covers_of_job {t : BlockTree} {k : Nat} {job : Job} (h : t.job k = .ok job) : job.Covers t := by
  unfold BlockTree.job at h
  simp only [bind_eq_ok_iff, pure_eq_ok_iff] at h
  obtain ⟨rows, hrows, cols, hcols, rfl⟩ := h
  exact ⟨hrows, hcols⟩

namespace Schedule

variable {t : BlockTree} {rows : IndexList} {s s' : Schedule}

theorem resolveKid_jobs {p : Nat} (h : s.resolveKid p = .ok s') : s'.jobs = s.jobs := by
  unfold resolveKid at h
  simp only [bind_eq_ok_iff, pure_eq_ok_iff] at h
  obtain ⟨_, -, _, -, _, -, rfl⟩ := h
  rfl

theorem covers_of_seed (h : seed t rows = .ok s) : ∀ job ∈ s.jobs, job.Covers t := by
  refine foldlM_keeps (fun s => ∀ job ∈ s.jobs, job.Covers t) h (by simp) fun k _ c c' hc hok => ?_
  unfold seedBlock at hok
  rw [bind_eq_ok_iff] at hok
  obtain ⟨left, -, hok⟩ := hok
  split_ifs at hok with hleft
  · rw [pure_eq_ok_iff] at hok
    rwa [← hok]
  · simp only [bind_eq_ok_iff] at hok
    obtain ⟨range, -, b, -, hok⟩ := hok
    split_ifs at hok with hb
    · simp only [bind_eq_ok_iff, pure_eq_ok_iff] at hok
      obtain ⟨job, hjob, rfl⟩ := hok
      intro g hg
      rcases List.mem_append.1 hg with hg | hg
      · exact hc g hg
      · rw [List.mem_singleton.1 hg]
        exact BlockTree.covers_of_job hjob
    · rw [bind_eq_ok_iff] at hok
      obtain ⟨parent, -, hok⟩ := hok
      cases parent with
      | none =>
          rw [pure_eq_ok_iff] at hok
          rwa [← hok]
      | some p => rwa [resolveKid_jobs hok]

theorem covers_of_climb {levels k : Nat} {job : Job} (h : climb t rows levels s k = .ok (.ready job, s')) :
    job.Covers t := by
  induction levels generalizing s k with
  | zero => cases h
  | succ levels ih =>
      rw [climb, bind_eq_ok_iff] at h
      obtain ⟨parent, -, h⟩ := h
      cases parent with
      | none => cases h
      | some p =>
          simp only [bind_eq_ok_iff] at h
          obtain ⟨s₁, -, left, -, h⟩ := h
          split_ifs at h with hleft
          · cases h
          · simp only [bind_eq_ok_iff] at h
            obtain ⟨range, -, b, -, h⟩ := h
            split_ifs at h with hb
            · simp only [bind_eq_ok_iff, pure_eq_ok_iff, Prod.mk.injEq, Climb.ready.injEq] at h
              obtain ⟨g, hg, rfl, rfl⟩ := h
              exact BlockTree.covers_of_job hg
            · exact ih h

theorem covers_of_drain {refactored : Bool} {jobs queue : List Job} (hjobs : ∀ job ∈ jobs, job.Covers t)
    (h : drain t rows refactored jobs s = .ok (some queue, s')) : ∀ job ∈ queue, job.Covers t := by
  induction jobs generalizing s queue s' with
  | nil =>
      simp only [drain, pure_eq_ok_iff, Prod.mk.injEq, Option.some.injEq] at h
      obtain ⟨rfl, rfl⟩ := h
      simp
  | cons job rest ih =>
      have hrest : ∀ g ∈ rest, g.Covers t := fun g hg => hjobs g (List.mem_cons_of_mem job hg)
      have hqueue : ∀ {g : Job} {q : Option (List Job)} {s₁ : Schedule}, g.Covers t →
          drain t rows refactored rest s₁ = .ok (q, s') → q.map (g :: ·) = some queue →
          ∀ job ∈ queue, job.Covers t := by
        intro g q s₁ hg hq hmap
        obtain ⟨tail, rfl, rfl⟩ := Option.map_eq_some_iff.1 hmap
        intro job hjob
        rcases List.mem_cons.1 hjob with rfl | hjob
        · exact hg
        · exact ih hrest hq job hjob
      rw [drain] at h
      by_cases hchanged : job.changed = true
      · rw [if_pos hchanged] at h
        simp only [bind_eq_ok_iff, pure_eq_ok_iff, Prod.mk.injEq] at h
        obtain ⟨⟨q, s₁⟩, hq, hmap, rfl⟩ := h
        exact hqueue (g := { job with changed := false, mark := _ }) (hjobs job List.mem_cons_self) hq hmap
      · rw [if_neg hchanged, bind_eq_ok_iff] at h
        obtain ⟨⟨outcome, s₁⟩, hclimb, h⟩ := h
        cases outcome with
        | finished => simp at h
        | waiting => exact ih hrest h
        | ready parent =>
            simp only [bind_eq_ok_iff, pure_eq_ok_iff, Prod.mk.injEq] at h
            obtain ⟨⟨q, s₂⟩, hq, hmap, rfl⟩ := h
            exact hqueue (covers_of_climb hclimb) hq hmap

theorem covers_of_advance {refactored : Bool} {status : Option Status} (hjobs : ∀ job ∈ s.jobs, job.Covers t)
    (h : s.advance t rows refactored = .ok (status, s')) : ∀ job ∈ s'.jobs, job.Covers t := by
  unfold advance at h
  split_ifs at h
  · rw [pure_eq_ok_iff, Prod.mk.injEq] at h
    rwa [← h.2]
  · rw [pure_eq_ok_iff, Prod.mk.injEq] at h
    rwa [← h.2]
  · rw [bind_eq_ok_iff] at h
    obtain ⟨⟨queue, s₁⟩, hdrain, h⟩ := h
    cases queue with
    | none =>
        rw [pure_eq_ok_iff, Prod.mk.injEq] at h
        rw [← h.2]
        simp
    | some queue =>
        rw [pure_eq_ok_iff, Prod.mk.injEq] at h
        rw [← h.2]
        exact covers_of_drain hjobs hdrain

end Schedule

end PolyProjection
