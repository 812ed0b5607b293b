import PolyProjection.Proofs.Rollup

/-! Whole runs of a schedule: it is seeded, and then it goes on from sweep to sweep, with whatever flags the sweeps
set on the jobs and whatever rows they drop. An account of the run says which blocks were resolved and which ones
entered as new jobs, independently of the counters. -/

namespace PolyProjection.Schedule

/-- What happened in a run so far. -/
structure Account where
  /-- The blocks skipped for want of active rows or drained as unchanged jobs. -/
  resolved : Set Nat
  /-- The blocks of the new jobs, in order of their entry. -/
  entered : List Nat
  /-- The changed jobs that the last call queued again without a refactorization. -/
  kept : List Job
  /-- The active rows at the last call. -/
  active : List Nat

/-- The blocks of the queue that are not queued again. -/
def newBlocks (jobs queue : List Job) : List Nat :=
  (queue.map (·.block)).filter fun k => !jobs.any fun job => job.changed && job.block == k

/-- The schedule is seeded from a list of rows that is not empty, and goes on with lists that only shrink. Between
two calls any flags are set on the jobs. -/
inductive Ran (t : BlockTree) : Schedule → Account → Prop
  | seeded {rows : IndexList} {active : List Nat} {s : Schedule} (hrows : t.Lists rows active) (hne : active ≠ [])
      (hok : seed t rows = .ok s) : Ran t s ⟨t.idle active, s.jobs.map (·.block), [], active⟩
  | advanced {s s' : Schedule} {acc : Account} {jobs : List Job} {rows : IndexList} {active : List Nat}
      {refactored : Bool} (hran : Ran t s acc) (hjobs : List.Forall₂ Reflagged s.jobs jobs)
      (hrows : t.Lists rows active) (hsub : active ⊆ acc.active)
      (hok : advance t rows refactored { s with jobs := jobs } = .ok (none, s')) :
      Ran t s' ⟨t.resolvedAfter active acc.resolved (drainedBlocks jobs), acc.entered ++ newBlocks jobs s'.jobs,
        if refactored then [] else jobs.filter (·.changed), active⟩

/-- The counters, the jobs and the account agree. -/
structure Agrees (t : BlockTree) (s : Schedule) (acc : Account) : Prop where
  size_kidsLeft : s.kidsLeft.size = t.size
  kidsLeft_eq : ∀ p < t.size, s.kidsLeft[p]? = some {k | t.IsParent k p ∧ k ∉ acc.resolved}.ncard
  jobs_ne_nil : s.jobs ≠ []
  mem_jobs_iff : ∀ k, (∃ job ∈ s.jobs, job.block = k) ↔
    k < t.size ∧ k ∉ acc.resolved ∧ ∀ c, t.IsParent c k → c ∈ acc.resolved
  ascending : s.jobs.Pairwise fun a b => a.block < b.block
  disjoint : s.jobs.Pairwise fun a b => a.rows.stop ≤ b.rows.start ∧ a.cols.stop ≤ b.cols.start
  covers : ∀ job ∈ s.jobs, job.Covers t
  unchanged : ∀ job ∈ s.jobs, job.changed = false
  marks : ∀ job ∈ s.jobs, job.mark ≠ none → ∃ g ∈ acc.kept, g.block = job.block ∧ g.mark = job.mark
  entered_nodup : acc.entered.Nodup

variable {t : BlockTree} {s s' : Schedule} {acc : Account} {jobs queue : List Job} {rows : IndexList}
  {active : List Nat} {R R' : Set Nat} {refactored : Bool} {k : Nat}

theorem mem_newBlocks : k ∈ newBlocks jobs queue ↔
    (∃ job ∈ queue, job.block = k) ∧ ∀ g ∈ jobs, g.changed = true → g.block ≠ k := by
  rw [newBlocks, List.mem_filter, List.mem_map, Bool.not_eq_true', List.any_eq_false]
  simp

/-- What is true of the jobs and of the account in the course of a run. -/
structure Follows (t : BlockTree) (s : Schedule) (acc : Account) : Prop where
  stands : s.Stands t acc.resolved
  covers : ∀ job ∈ s.jobs, job.Covers t
  unchanged : ∀ job ∈ s.jobs, job.changed = false
  marks : ∀ job ∈ s.jobs, job.mark ≠ none → ∃ g ∈ acc.kept, g.block = job.block ∧ g.mark = job.mark
  entered_nodup : acc.entered.Nodup
  entered_seen : ∀ k ∈ acc.entered, k ∈ acc.resolved ∨ ∃ job ∈ s.jobs, job.block = k

theorem Follows.of_seed (h : t.Tested) (hrows : t.Lists rows active) (hne : active ≠ []) (hok : seed t rows = .ok s) :
    Follows t s ⟨t.idle active, s.jobs.map (·.block), [], active⟩ := by
  obtain ⟨hs, hfresh⟩ := Stands.of_seed h hrows hne hok
  refine ⟨hs, covers_of_seed hok, fun job hjob => (hfresh job hjob).flags.1, fun job hjob hmark => ?_, ?_,
    fun k hk => .inr (List.mem_map.1 hk)⟩
  · exact absurd (hfresh job hjob).flags.2 hmark
  · exact List.pairwise_map.2 (hs.ascending.imp Nat.ne_of_lt)

/-- A job of the next sweep that was not new is a changed one, with its mark unless the factor was computed again. -/
theorem Queued.flags (hqueued : Queued t refactored jobs R R' queue) {job : Job} (hjob : job ∈ queue) :
    job.changed = false ∧ (job.mark ≠ none → ∃ g ∈ if refactored then [] else jobs.filter (·.changed),
      g.block = job.block ∧ g.mark = job.mark) := by
  rcases (hqueued.mem_iff job).1 hjob with ⟨g, hg, hchanged, rfl⟩ | ⟨hfresh, -⟩
  · refine ⟨rfl, fun hmark => ?_⟩
    cases refactored with
    | true => exact absurd rfl hmark
    | false => exact ⟨g, List.mem_filter.2 ⟨hg, hchanged⟩, rfl, rfl⟩
  · exact ⟨hfresh.flags.1, fun hmark => absurd hfresh.flags.2 hmark⟩

/-- A block with a job has one again in the next sweep or is resolved. -/
theorem Queued.seen (hqueued : Queued t refactored jobs R (t.resolvedAfter active R (drainedBlocks jobs)) queue)
    {job : Job} (hjob : job ∈ jobs) : job.block ∈ t.resolvedAfter active R (drainedBlocks jobs) ∨
      (job.changed = true ∧ ∃ g ∈ queue, g.block = job.block) := by
  cases hchanged : job.changed with
  | true => exact .inr ⟨rfl, again refactored job, (hqueued.mem_iff _).2 (.inl ⟨job, hjob, hchanged, rfl⟩), rfl⟩
  | false => exact .inl (.drained ⟨job, hjob, hchanged, rfl⟩)

/-- A block that enters with the next sweep did not enter before. -/
theorem Follows.entered_append (hs : Follows t s acc) (hblocks : jobs.map (·.block) = s.jobs.map (·.block))
    (hstands : s'.Stands t (t.resolvedAfter active acc.resolved (drainedBlocks jobs)))
    (hqueued : Queued t refactored jobs acc.resolved (t.resolvedAfter active acc.resolved (drainedBlocks jobs)) s'.jobs) :
    (acc.entered ++ newBlocks jobs s'.jobs).Nodup := by
  have hnd : (s'.jobs.map (·.block)).Nodup := List.pairwise_map.2 (hstands.ascending.imp Nat.ne_of_lt)
  refine List.nodup_append'.2 ⟨hs.entered_nodup, hnd.filter _, fun k hk hnew => ?_⟩
  obtain ⟨hjob, hother⟩ := mem_newBlocks.1 hnew
  have hready := (hstands.ready_iff k).1 hjob
  rcases hs.entered_seen k hk with hR | hold
  · exact hready.unresolved (.before hR)
  · rw [← List.mem_map, ← hblocks, List.mem_map] at hold
    obtain ⟨g, hg, rfl⟩ := hold
    rcases hqueued.seen hg with hR' | ⟨hchanged, -⟩
    · exact hready.unresolved hR'
    · exact hother g hg hchanged rfl

theorem Follows.of_advance (h : t.Tested) (hs : Follows t s acc) (hjobs : List.Forall₂ Reflagged s.jobs jobs)
    (hrows : t.Lists rows active) (hok : advance t rows refactored { s with jobs := jobs } = .ok (none, s')) :
    Follows t s' ⟨t.resolvedAfter active acc.resolved (drainedBlocks jobs), acc.entered ++ newBlocks jobs s'.jobs,
      if refactored then [] else jobs.filter (·.changed), active⟩ := by
  obtain ⟨status, s₁, hadvance, hadvanced⟩ :=
    (hs.stands.reflagged hjobs).advance_ok h hrows refactored
  rw [hok, Except.ok.injEq, Prod.mk.injEq] at hadvance
  obtain ⟨rfl, rfl⟩ := hadvance
  cases hadvanced with
  | next _ hstands hqueued =>
      have hblocks := blocks_of_reflagged hjobs
      refine ⟨hstands, covers_of_advance (covers_of_reflagged hjobs hs.covers) hok, fun job hjob => (hqueued.flags hjob).1,
        fun job hjob => (hqueued.flags hjob).2, hs.entered_append hblocks hstands hqueued, fun k hk => ?_⟩
      rcases List.mem_append.1 hk with hk | hk
      · rcases hs.entered_seen k hk with hR | hold
        · exact .inl (.before hR)
        · rw [← List.mem_map, ← hblocks, List.mem_map] at hold
          obtain ⟨g, hg, rfl⟩ := hold
          exact (hqueued.seen hg).imp id fun hseen => hseen.2
      · exact .inr (mem_newBlocks.1 hk).1

theorem Ran.follows (h : t.Tested) (hran : Ran t s acc) : Follows t s acc := by
  induction hran with
  | seeded hrows hne hok => exact .of_seed h hrows hne hok
  | advanced _ hjobs hrows _ hok ih => exact ih.of_advance h hjobs hrows hok

theorem Follows.agrees (h : t.Tested) (hs : Follows t s acc) : Agrees t s acc where
  size_kidsLeft := by rw [hs.stands.counts, size_table]
  kidsLeft_eq p hp := by
    rw [hs.stands.counts, getElem?_table_of_lt hp]
    rfl
  jobs_ne_nil := hs.stands.jobs_ne_nil h
  mem_jobs_iff k := (hs.stands.ready_iff k).trans ⟨fun hk => ⟨hk.1, hk.2, hk.3⟩, fun hk => ⟨hk.1, hk.2.1, hk.2.2⟩⟩
  ascending := hs.stands.ascending
  disjoint := hs.stands.disjoint h hs.covers
  covers := hs.covers
  unchanged := hs.unchanged
  marks := hs.marks
  entered_nodup := hs.entered_nodup

/-- A schedule can be seeded and go on in every case, so no counter is decremented below zero. In the course of a run
the counters, the jobs and the account agree. A call ends the run as solved if the root is an unchanged job or it is
resolved in the call while rows are active, and for want of rows if only that can be said. -/
theorem ran_agrees (h : t.Accepted) :
    (∀ rows active, t.Lists rows active → active ≠ [] → ∃ s, seed t rows = .ok s) ∧
    ∀ s acc, Ran t s acc → Agrees t s acc ∧
      ∀ jobs rows active refactored, List.Forall₂ Reflagged s.jobs jobs → t.Lists rows active →
        active ⊆ acc.active → ∃ status s', advance t rows refactored { s with jobs := jobs } = .ok (status, s') ∧
          (status = some .solutionFound ↔ (∃ job ∈ jobs, job.block = t.root ∧ job.changed = false) ∨
            (active ≠ [] ∧ t.root ∈ t.resolvedAfter active acc.resolved (drainedBlocks jobs))) ∧
          (status = some .allRowsDropped ↔ active = [] ∧ ¬∃ job ∈ jobs, job.block = t.root ∧ job.changed = false) ∧
          (status ≠ none → status = some .solutionFound ∨ status = some .allRowsDropped) := by
  have ht := h.tested
  refine ⟨fun rows active hrows _ => ?_, fun s acc hran => ?_⟩
  · obtain ⟨s, hok, -⟩ := seed_ok ht hrows
    exact ⟨s, hok⟩
  · have hs := hran.follows ht
    refine ⟨hs.agrees ht, fun jobs rows active refactored hjobs hrows _ => ?_⟩
    obtain ⟨status, s', hok, hadvanced⟩ := (hs.stands.reflagged hjobs).advance_ok ht hrows refactored
    have hroot : t.root ∈ drainedBlocks jobs ↔ ∃ job ∈ jobs, job.block = t.root ∧ job.changed = false :=
      exists_congr fun job => and_congr_right fun _ => and_comm
    refine ⟨status, s', hok, ?_⟩
    rw [← hroot]
    cases hadvanced with
    | next hne hstands _ =>
        refine ⟨⟨nofun, ?_⟩, ⟨nofun, fun hnil => absurd hnil.1 hne⟩, nofun⟩
        rintro (hdrained | ⟨-, hmem⟩)
        · exact absurd (.drained hdrained) hstands.root_unresolved
        · exact absurd hmem hstands.root_unresolved
    | found hfound =>
        refine ⟨⟨fun _ => hfound, fun _ => rfl⟩, ⟨nofun, fun ⟨hnil, hlate⟩ => ?_⟩, fun _ => .inl rfl⟩
        exact absurd hfound (not_or.2 ⟨hlate, fun hactive => hactive.1 hnil⟩)
    | dropped hnil hlate =>
        refine ⟨⟨nofun, ?_⟩, ⟨fun _ => ⟨hnil, hlate⟩, fun _ => rfl⟩, fun _ => .inr rfl⟩
        rintro (hdrained | ⟨hne, -⟩)
        · exact absurd hdrained hlate
        · exact absurd hnil hne

/-- Two leaves below a root. -/
def twoLeaves : BlockTree :=
  ⟨#[some 2, some 2, none], #[[], [], [0, 1]], #[1, 1, 0], #[0, 1, 0], #[0, 2, 4, 5], #[0, 2, 4, 5]⟩

/-- Only the last of five rows is linked. -/
def lastRow : IndexList :=
  ⟨#[none, none, none, none, some 5, some 4], #[none, none, none, none, some 5, some 4], 1⟩

theorem accepted_twoLeaves : twoLeaves.Accepted :=
  ⟨#[some 2, some 2, none], #[0, 2, 4, 5], #[0, 2, 4, 5], by decide +kernel⟩

theorem lists_lastRow : twoLeaves.Lists lastRow [4] := by
  refine ⟨⟨5, by decide, rfl, rfl, rfl, List.nodup_singleton 4, by decide, ?_, by decide⟩, by decide⟩
  exact .cons_cons ⟨rfl, rfl⟩ (.cons_cons ⟨rfl, rfl⟩ (.singleton 5))

/-- Without an active row in the leaves the root is queued at once, and the account says that the leaves are resolved. -/
theorem ran_agrees_twoLeaves : twoLeaves.Accepted ∧ twoLeaves.Lists lastRow [4] ∧ ∃ s,
    seed twoLeaves lastRow = .ok s ∧ Agrees twoLeaves s ⟨twoLeaves.idle [4], [2], [], [4]⟩ := by
  have hseed : seed twoLeaves lastRow = .ok ⟨#[0, 0, 0], [⟨2, ⟨0, 5⟩, ⟨0, 5⟩, false, none⟩]⟩ := by decide +kernel
  exact ⟨accepted_twoLeaves, lists_lastRow, _, hseed,
    ((ran_agrees accepted_twoLeaves).2 _ _ (.seeded lists_lastRow (by decide) hseed)).1⟩

end PolyProjection.Schedule
