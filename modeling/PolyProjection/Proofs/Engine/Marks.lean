import Mathlib
import PolyProjection.Proofs.Engine.Confinement

/-! Marks. A search leaves the equations of the rows before its mark as they were, so their part of the forward solve
stays valid, and a job that is queued again solves from the mark on. -/

namespace PolyProjection

set_option linter.unusedSectionVars false

variable {K : Type} [Field K] [LinearOrder K] [IsStrictOrderedRing K]

namespace Engine

/-- The matrix of the Newton system of the working set. -/
def system (e : Engine K) : ℕ → ℕ → K :=
  normal e.problem.a (fun j => e.set.colAt j == .free) (fun i => (e.set.rowAt i).isActive) e.sigma

/-- The rows of the job before `stop` have been forward solved. -/
def SolvedBefore (e : Engine K) (job : Job) (stop : ℕ) : Prop :=
  ForwardSolved e.system (e.jobRows job) (coord e.work.rhs) (coord e.work.fwd) stop

/-- The equations of the given rows are as they were: the columns that have changed do not meet them. -/
structure KeepsRows (p : ℕ → Prop) (e e' : Engine K) : Prop where
  problem : e'.problem = e.problem
  sigma : e'.sigma = e.sigma
  row : ∀ i, p i → e'.set.rowAt i = e.set.rowAt i
  rhs : ∀ i, p i → coord e'.work.rhs i = coord e.work.rhs i
  fwd : ∀ i, p i → coord e'.work.fwd i = coord e.work.fwd i
  column : ∀ j, e'.set.colAt j = e.set.colAt j ∨
    ∀ i, p i → (e.set.rowAt i).isActive = true → e.problem.a.coeff i j = 0

variable {e e' e'' : Engine K} {p p' : ℕ → Prop} {job : Job} {i j stop : ℕ}

theorem KeepsRows.of_eq (hproblem : e'.problem = e.problem) (hsigma : e'.sigma = e.sigma)
    (hrow : ∀ i, e'.set.rowAt i = e.set.rowAt i) (hcol : ∀ j, e'.set.colAt j = e.set.colAt j)
    (hrhs : e'.work.rhs = e.work.rhs) (hfwd : e'.work.fwd = e.work.fwd) : KeepsRows p e e' :=
  ⟨hproblem, hsigma, fun i _ => hrow i, fun i _ => by rw [hrhs], fun i _ => by rw [hfwd], fun j => .inl (hcol j)⟩

theorem KeepsRows.mono (h : KeepsRows p e e') (hp : ∀ i, p' i → p i) : KeepsRows p' e e' where
  problem := h.problem
  sigma := h.sigma
  row i hi := h.row i (hp i hi)
  rhs i hi := h.rhs i (hp i hi)
  fwd i hi := h.fwd i (hp i hi)
  column j := (h.column j).imp_right fun hzero i hi => hzero i (hp i hi)

theorem KeepsRows.trans (h : KeepsRows p e e') (h' : KeepsRows p' e' e'') (hp : ∀ i, p' i → p i) :
    KeepsRows p' e e'' where
  problem := h'.problem.trans h.problem
  sigma := h'.sigma.trans h.sigma
  row i hi := (h'.row i hi).trans (h.row i (hp i hi))
  rhs i hi := (h'.rhs i hi).trans (h.rhs i (hp i hi))
  fwd i hi := (h'.fwd i hi).trans (h.fwd i (hp i hi))
  column j := by
    rcases h'.column j with hsame' | hzero'
    · rcases h.column j with hsame | hzero
      · exact .inl (hsame'.trans hsame)
      · exact .inr fun i hi => hzero i (hp i hi)
    · refine .inr fun i hi hact => ?_
      rw [← h.problem]
      exact hzero' i hi (by rw [h.row i (hp i hi)]; exact hact)

/-- The entries between two rows of a job whose equations are as they were. -/
theorem KeepsRows.system_eq (hp : e.problem.Accepted) (hjob : job.Covers e.problem.tree) (h : KeepsRows p e e') {k : ℕ}
    (hi : i ∈ job.rows.indices) (hpi : p i) (hpk : p k) : e'.system i k = e.system i k := by
  rw [system, system, h.problem, h.sigma]
  refine hp.normal_congr hjob hi (by rw [h.row i hpi]) (by rw [h.row k hpk]) fun j _ hact hne => ?_
  rcases h.column j with hsame | hzero
  · rw [hsame]
  · exact absurd (hzero i hpi hact) hne

/-- What has been forward solved stays so, as long as its equations do. -/
theorem KeepsRows.solvedBefore (hp : e.problem.Accepted) (hjob : job.Covers e.problem.tree) (h : KeepsRows p e e')
    (hbefore : ∀ i, job.rows.start ≤ i → i < job.rows.stop → i < stop → p i) (hs : e.SolvedBefore job stop) :
    e'.SolvedBefore job stop := by
  have hwithin : ∀ i, job.rows.start ≤ i → i < min stop job.rows.stop → p i := fun i htop hi =>
    hbefore i htop (by omega) (by omega)
  have hrows : ∀ i < min stop job.rows.stop, i ∈ e'.jobRows job ↔ i ∈ e.jobRows job := by
    intro i hi
    rw [mem_jobRows, mem_jobRows]
    exact ⟨fun hall => ⟨by rw [← h.row i (hwithin i hall.2.1 hi)]; exact hall.1, hall.2⟩,
      fun hall => ⟨by rw [h.row i (hwithin i hall.2.1 hi)]; exact hall.1, hall.2⟩⟩
  have hentry : ∀ i k, job.rows.start ≤ i → i < min stop job.rows.stop → job.rows.start ≤ k →
      k < min stop job.rows.stop → e.system i k = e'.system i k := fun i k htop hi htop' hk =>
    (h.system_eq hp hjob ⟨htop, by omega⟩ (hwithin i htop hi) (hwithin k htop' hk)).symm
  have happart : Apart e'.system job.rows.start job.rows.stop := by
    rw [system, h.problem]
    exact hp.apart hjob
  have hsolved := (hs.mono (min_le_left stop job.rows.stop)).congr ((hp.apart hjob).mono (min_le_right _ _))
    (happart.mono (min_le_right _ _)) hentry (fun i hi => (mem_jobRows.1 hi).2.1) hrows
    (fun i hi hlt => h.rhs i (hwithin i (mem_jobRows.1 hi).2.1 hlt))
    fun i hi hlt => h.fwd i (hwithin i (mem_jobRows.1 hi).2.1 hlt)
  exact fun i hi hlt => hsolved i hi (lt_min hlt (mem_jobRows.1 hi).2.2)

end Engine

namespace LineSearch

open Engine

variable {s s' : LineSearch K} {id j k : ℕ} {key delta : K}

theorem ColumnFreed.keepsRows (hf : ColumnFreed s s' j) (h : s.engine.Regular) :
    KeepsRows (fun i => ¬Reaches s'.mark i) s.engine s'.engine := by
  -- an active row that the column meets is reached by the mark
  have hzero : ∀ i, ¬Reaches s'.mark i → (s.engine.set.rowAt i).isActive = true →
      s.engine.problem.a.coeff i j = 0 := by
    intro i hi hact
    by_contra hne
    refine hi ((hf.mark i).2 (.inr ?_))
    by_contra hnone
    refine hne (SparseMatrix.coeff_of_not_mem fun hmem => hnone ?_)
    obtain ⟨x, hx, rfl⟩ := List.mem_map.1 hmem
    exact ⟨x, hx, hact, le_rfl⟩
  refine ⟨hf.problem, hf.sigma, fun i _ => hf.rowAt i, fun i hi => ?_, fun i _ => by rw [hf.fwd], fun l => ?_⟩
  · rw [hf.rhs]
    split_ifs with hact
    · rw [hzero i hi hact, zero_mul, sub_zero]
    · exact sub_zero _
  · rw [hf.colAt h]
    split_ifs with hl
    · exact .inr fun i hi hact => hl ▸ hzero i hi hact
    · exact .inl rfl

theorem RowDropped.keepsRows (hd : RowDropped s s' k delta) (h : s.engine.Regular) :
    KeepsRows (fun i => ¬Reaches s'.mark i) s.engine s'.engine := by
  have hne : ∀ i, ¬Reaches s'.mark i → i ≠ k := fun i hi hik =>
    hi ((hd.mark i).2 (.inr (.inl (hik ▸ le_rfl))))
  refine ⟨hd.problem, hd.sigma, fun i hi => ?_, fun i hi => ?_, fun i _ => by rw [hd.fwd], fun j => .inl (hd.colAt j)⟩
  · rw [hd.rowAt h, if_neg (hne i hi)]
  · rw [hd.rhs, if_neg (hne i hi), sub_zero]
    split_ifs with hact
    · rw [Finset.sum_eq_zero, sub_zero]
      intro j _
      by_cases hkj : k ∈ (s.engine.problem.a.columnEntries j).map Prod.fst
      · by_cases hij : i ∈ (s.engine.problem.a.columnEntries j).map Prod.fst
        · have hheld : s.engine.set.colAt j ≠ .free := by
            intro hfree
            obtain ⟨⟨_, v⟩, hx, rfl⟩ := List.mem_map.1 hkj
            obtain ⟨y, hy, rfl⟩ := List.mem_map.1 hij
            exact hi ((hd.mark y.1).2 (.inr (.inr ⟨(j, v),
              (h.problem.transpose.mem_iff h.problem.formatted).2 hx, hfree, y, hy, hact, le_rfl⟩)))
          rw [if_neg hheld, mul_zero]
        · rw [SparseMatrix.coeff_of_not_mem hij, zero_mul, ite_self, mul_zero]
      · rw [SparseMatrix.coeff_of_not_mem hkj, zero_mul]
    · exact sub_zero _

theorem Event.keepsRows (he : Event s s' id key) (h : s.engine.Regular) :
    KeepsRows (fun i => ¬Reaches s'.mark i) s.engine s'.engine ∧ ∀ i, Reaches s.mark i → Reaches s'.mark i := by
  obtain ⟨heap, s₁, hvalid, -, hevent, rfl⟩ := he.commit
  replace h := h.of_heap hvalid
  have hheap : KeepsRows (fun _ => True) s.engine (s.goTo heap (max 0 key)).engine :=
    .of_eq rfl rfl (fun _ => rfl) (fun _ => rfl) rfl rfl
  rcases hevent with ⟨-, hf⟩ | ⟨-, delta, hd⟩
  · exact ⟨hheap.trans (hf.keepsRows h) fun _ _ => trivial, fun i hi => (hf.mark i).2 (.inl hi)⟩
  · exact ⟨hheap.trans (hd.keepsRows h) fun _ _ => trivial, fun i hi => (hd.mark i).2 (.inl hi)⟩

theorem Walks.keepsRows (hw : Walks s s') (h : s.engine.Regular) :
    KeepsRows (fun i => ¬Reaches s'.mark i) s.engine s'.engine ∧ ∀ i, Reaches s.mark i → Reaches s'.mark i := by
  induction hw with
  | refl => exact ⟨.of_eq rfl rfl (fun _ => rfl) (fun _ => rfl) rfl rfl, fun _ hi => hi⟩
  | tail hwalks hstep ih =>
      obtain ⟨id, key, he⟩ := hstep
      obtain ⟨hkeeps, hreaches⟩ := he.keepsRows (Walks.regular hwalks h)
      exact ⟨ih.1.trans hkeeps fun i hi hbefore => hi (hreaches i hbefore), fun i hi => hreaches i (ih.2 i hi)⟩

end LineSearch

namespace Engine

variable {e e' : Engine K} {job : Job} {out : LineOutcome K}

/-- A search leaves the rows before its mark as they were. -/
theorem Searched.keepsRows {m : ℕ} (hr : e.Regular) (h : e.Searched job.rows job.cols out e') (hmark : out.mark = some m) :
    KeepsRows (· < m) e e' := by
  cases h with
  | flat _ _ => cases hmark
  | moved hd hslope hc hfinishes hadvanced =>
      rename_i e₁ e₂ s flag
      have h₂ : KeepsRows (fun _ => True) e e₂ := by
        obtain ⟨pa, rfl, -⟩ := id hd
        obtain ⟨heap, rfl, -⟩ := id hc
        exact .of_eq rfl rfl (fun _ => rfl) (fun _ => rfl) rfl rfl
      cases hfinishes with
      | full _ =>
          dsimp only at hmark
          split_ifs at hmark
      | walk hwalks hends =>
          rename_i s₁
          have hsame : s.mark = s₁.mark := by cases hends <;> rfl
          obtain ⟨hkeeps, -⟩ := LineSearch.Walks.keepsRows hwalks (hc.regular (hd.regular hr))
          have hadvance : KeepsRows (fun _ => True) s₁.engine e' := by
            rw [← hends.engine]
            obtain ⟨dlambda, c, rfl, -⟩ := hadvanced
            exact .of_eq rfl rfl (fun _ => rfl) (fun _ => rfl) rfl rfl
          have hs : s.mark = some m := by
            dsimp only at hmark
            split_ifs at hmark
            exact hmark
          -- a row before the mark is not reached by it
          refine ((h₂.trans hkeeps fun _ _ => trivial).trans (hadvance.mono fun _ _ => trivial) fun _ hi => hi).mono
            fun i (hi : i < m) hreach => ?_
          obtain ⟨k, hk, hki⟩ := hreach
          rw [← hsame, hs, Option.some.injEq] at hk
          exact absurd hi (not_lt.2 (hk ▸ hki))

/-- After a search the rows of the job before the new mark are still forward solved. -/
theorem Searched.solvedBefore (hp : e.problem.Accepted) (hjob : job.Covers e.problem.tree) (hr : e.Regular)
    (h : e.Searched job.rows job.cols out e') (hs : e.SolvedBefore job job.rows.stop) :
    e'.SolvedBefore job (out.mark.getD 0) := by
  cases hmark : out.mark with
  | none => exact fun i _ hi => absurd hi (Nat.not_lt_zero i)
  | some m =>
      rw [Option.getD_some]
      exact (h.keepsRows hr hmark).solvedBefore hp hjob (fun i _ _ hi => hi) fun i hi _ =>
        hs i hi (mem_jobRows.1 hi).2.2

end Engine

end PolyProjection
