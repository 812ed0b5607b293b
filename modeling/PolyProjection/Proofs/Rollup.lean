import PolyProjection.Proofs.IndexList
import PolyProjection.Proofs.Resolution
import PolyProjection.Proofs.Schedule

/-! The counters of a schedule and the jobs it queues. The counter of a block is the number of its children that are
not resolved, and the jobs are the blocks that are ready. A climb resolves its block and what is skipped above it, so
at most one block becomes ready by it, and that one comes before the jobs that are not drained yet. -/

namespace PolyProjection

/-- The linked list has the entries `active`, which are rows of the tree. -/
structure BlockTree.Lists (t : BlockTree) (rows : IndexList) (active : List Nat) : Prop where
  holds : ∃ n, t.nrows ≤ n ∧ rows.Holds n active
  lt : ∀ i ∈ active, i < t.nrows

namespace BlockTree

variable {t : BlockTree} {rows : IndexList} {active : List Nat} {R R' : Set Nat} {c k p q : Nat} {job : Job}

theorem Lists.meets_ok (h : t.Lists rows active) {range : IndexRange} (hstop : range.stop ≤ t.nrows) :
    ∃ b, Schedule.meets rows range = .ok b ∧ (b = true ↔ ∃ i ∈ active, range.start ≤ i ∧ i < range.stop) := by
  obtain ⟨n, hn, hholds⟩ := h.holds
  refine ⟨_, by rw [Schedule.meets, hholds.seek_eq (hstop.trans hn), ok_bind]; rfl, ?_⟩
  rw [List.find?_isSome]
  simp only [List.mem_range'_1, decide_eq_true_eq]
  constructor
  · rintro ⟨i, ⟨hle, hlt⟩, hi⟩
    exact ⟨i, hi, hle, by omega⟩
  · rintro ⟨i, hi, hle, hlt⟩
    exact ⟨i, ⟨hle, by omega⟩, hi⟩

theorem Lists.size_eq_zero_iff (h : t.Lists rows active) : rows.size = 0 ↔ active = [] := by
  obtain ⟨n, -, hholds⟩ := h.holds
  rw [hholds.size_eq, List.length_eq_zero_iff]

/-- How many children of the block are not resolved. -/
noncomputable def unresolvedKids (t : BlockTree) (R : Set Nat) (p : Nat) : Nat :=
  {c | t.IsParent c p ∧ c ∉ R}.ncard

theorem finite_kids (t : BlockTree) (R : Set Nat) (p : Nat) : {c | t.IsParent c p ∧ c ∉ R}.Finite :=
  (Set.finite_lt_nat t.size).subset fun _ hc => (Array.getElem?_eq_some_iff.1 hc.1).1

theorem unresolvedKids_eq_zero_iff : t.unresolvedKids R p = 0 ↔ ∀ c, t.IsParent c p → c ∈ R := by
  rw [unresolvedKids, Set.ncard_eq_zero (t.finite_kids R p), Set.eq_empty_iff_forall_notMem]
  simp

theorem unresolvedKids_pos_iff : 0 < t.unresolvedKids R p ↔ ∃ c, t.IsParent c p ∧ c ∉ R := by
  rw [Nat.pos_iff_ne_zero, Ne, unresolvedKids_eq_zero_iff]
  push Not
  rfl

/-- The count of the parent of a block that is resolved falls by one, and no other one changes. -/
theorem unresolvedKids_insert (hc : t.IsParent c p) (hcR : c ∉ R) : t.unresolvedKids (insert c R) =
    Function.update (t.unresolvedKids R) p (t.unresolvedKids R p - 1) := by
  funext q
  by_cases hqp : q = p
  · subst hqp
    rw [Function.update_self, unresolvedKids, unresolvedKids,
      ← Set.ncard_sdiff_singleton_of_mem (show c ∈ {c | t.IsParent c q ∧ c ∉ R} from ⟨hc, hcR⟩)]
    congr 1
    ext a
    simp only [Set.mem_ofPred_eq, Set.mem_insert_iff, Set.mem_sdiff, Set.mem_singleton_iff]
    tauto
  · rw [Function.update_of_ne hqp, unresolvedKids, unresolvedKids]
    congr 1
    ext a
    refine and_congr_right fun ha => not_congr (or_iff_right ?_)
    rintro rfl
    exact hqp (ha.unique hc)

theorem Tested.length_kids (h : t.Tested) : t.kids.map List.length = table t.size (t.unresolvedKids ∅) := by
  rw [h.kids_eq, kidsOf, Array.map_map]
  refine table_congr fun p _ => ?_
  have hnd : ((List.range t.parent.size).filter fun k => t.parent[k]? == some (some p)).Nodup :=
    List.nodup_range.filter _
  rw [Function.comp, ← List.toFinset_card_of_nodup hnd, ← Set.ncard_coe_finset, unresolvedKids]
  congr 1
  ext c
  simp only [List.coe_toFinset, List.mem_filter, List.mem_range, beq_iff_eq, Set.mem_ofPred_eq, Set.notMem_empty,
    not_false_eq_true, and_true]
  exact and_iff_right_of_imp fun hc => (Array.getElem?_eq_some_iff.1 hc).1

theorem Tested.job_ok (h : t.Tested) (hk : k < t.size) : ∃ job, t.job k = .ok job ∧ job.block = k := by
  obtain ⟨rows, hrows⟩ := h.subtreeRows_ok hk
  obtain ⟨cols, hcols⟩ := h.subtreeCols_ok hk
  exact ⟨_, by rw [BlockTree.job, hrows, ok_bind, hcols, ok_bind]; rfl, rfl⟩

/-- A new job. -/
def IsFresh (t : BlockTree) (job : Job) : Prop :=
  t.job job.block = .ok job

theorem isFresh_of_job (h : t.job k = .ok job) : t.IsFresh job ∧ job.block = k := by
  have hblock : job.block = k := by
    unfold BlockTree.job at h
    simp only [bind_eq_ok_iff, pure_eq_ok_iff] at h
    obtain ⟨_, -, _, -, rfl⟩ := h
    rfl
  exact ⟨by rw [IsFresh, hblock, h], hblock⟩

theorem IsFresh.flags (h : t.IsFresh job) : job.changed = false ∧ job.mark = none := by
  unfold IsFresh BlockTree.job at h
  simp only [bind_eq_ok_iff, pure_eq_ok_iff] at h
  obtain ⟨_, -, _, -, h⟩ := h
  rw [← h]
  exact ⟨rfl, rfl⟩

/-- A block has one new job. -/
theorem IsFresh.eq_of_block {job' : Job} (h : t.IsFresh job) (h' : t.IsFresh job') (heq : job.block = job'.block) :
    job = job' := by
  rw [IsFresh, heq, h', Except.ok.injEq] at h
  exact h.symm

/-- The last children of the block were resolved between `R` and `R'`, and the block itself was not. -/
def BecomesReady (t : BlockTree) (R R' : Set Nat) (q : Nat) : Prop :=
  t.Ready R' q ∧ ∃ c, t.IsParent c q ∧ c ∉ R

/-- A block that is resolved on the way changes nothing about who becomes ready. -/
theorem becomesReady_insert_iff (hk : t.IsParent k p) (hp : p ∈ R') :
    t.BecomesReady (insert k R) R' q ↔ t.BecomesReady R R' q := by
  refine and_congr_right fun hq => ⟨?_, ?_⟩
  · rintro ⟨c, hc, hcR⟩
    exact ⟨c, hc, fun h => hcR (.inr h)⟩
  · rintro ⟨c, hc, hcR⟩
    refine ⟨c, hc, ?_⟩
    rintro (rfl | h)
    · exact hq.unresolved (hc.unique hk ▸ hp)
    · exact hcR h

/-- Below its parent only the block itself is new, so no other block than the parent can become ready by it. -/
theorem BecomesReady.eq_parent (hp : t.IsParent k p) (hq : t.BecomesReady R (insert k R) q) : q = p := by
  obtain ⟨hq, c, hc, hcR⟩ := hq
  obtain rfl := (hq.kids c hc).resolve_right hcR
  exact hc.unique hp

/-- The parent becomes ready by its last child. -/
theorem becomesReady_insert_parent_iff (h : t.Tested) (hclosed : t.Closed R) (hk : t.Ready R k)
    (hp : t.IsParent k p) : t.BecomesReady R (insert k R) p ↔ ∀ c, t.IsParent c p → c ∈ insert k R := by
  refine ⟨fun hq => hq.1.kids, fun hkids => ⟨⟨(h.of_isParent hp).2, ?_, hkids⟩, k, hp, hk.unresolved⟩⟩
  rintro (heq | hpR)
  · exact (h.of_isParent hp).1.ne' heq
  · exact hk.unresolved (hclosed k p hp hpR)

theorem Closed.insert (hclosed : t.Closed R) (hk : t.Ready R k) : t.Closed (insert k R) := by
  rintro c q hc (rfl | hq)
  · exact .inr (hk.kids c hc)
  · exact .inr (hclosed c q hc hq)

theorem Ready.root_notMem_insert (h : t.Tested) (hclosed : t.Closed R) (hk : t.Ready R k) (hroot : k ≠ t.root) :
    t.root ∉ insert k R := by
  rintro (heq | hmem)
  · exact hroot heq.symm
  · exact hk.unresolved (hclosed.of_descends (h.descends_root hk.lt_size) hmem)

end BlockTree

namespace Schedule

variable {t : BlockTree} {rows : IndexList} {active : List Nat} {R R' : Set Nat} {s s' : Schedule} {k c p : Nat}
  {jobs queue : List Job} {refactored : Bool}

/-- The counters of the blocks are right for the resolved blocks `R`. -/
def Counts (t : BlockTree) (R : Set Nat) (s : Schedule) : Prop :=
  s.kidsLeft = table t.size (t.unresolvedKids R)

theorem Counts.fetch_eq (hs : s.Counts t R) (hp : p < t.size) : fetch s.kidsLeft p = .ok (t.unresolvedKids R p) := by
  rw [hs, fetch_table hp]

/-- Resolving a child takes one off the counter of its parent, which is not zero. -/
theorem Counts.resolveKid_ok (h : t.Tested) (hs : s.Counts t R) (hc : t.IsParent c p) (hcR : c ∉ R) :
    ∃ s', s.resolveKid p = .ok s' ∧ s'.Counts t (insert c R) ∧ s'.jobs = s.jobs := by
  have hp := (h.of_isParent hc).2
  have hpos : 1 ≤ t.unresolvedKids R p := BlockTree.unresolvedKids_pos_iff.2 ⟨c, hc, hcR⟩
  refine ⟨{ s with kidsLeft := table t.size (t.unresolvedKids (insert c R)) }, ?_, rfl, rfl⟩
  rw [BlockTree.unresolvedKids_insert hc hcR, resolveKid, hs, fetch_table hp, ok_bind, subtract, if_pos hpos, ok_bind,
    store_table _ hp, ok_bind]
  rfl

theorem parentOf_of_isParent (hk : t.IsParent k p) : t.parentOf k = .ok (some p) :=
  fetch_eq_ok_iff.2 hk

theorem parentOf_root (h : t.Tested) : t.parentOf t.root = .ok none := by
  have hlt : t.root < t.parent.size := Nat.sub_lt h.size_pos Nat.one_pos
  have hroot := h.root
  rw [show t.size - 1 = t.root from rfl, Array.getElem?_eq_getElem hlt, Option.join_some] at hroot
  rw [BlockTree.parentOf, fetch_of_lt hlt, hroot]

/-- What a climb from a block that is drained leaves, if the blocks `R` were resolved before and `R'` are after. -/
inductive Climbed (t : BlockTree) (R R' : Set Nat) (s : Schedule) : Climb → Prop
  | finished (h : t.root ∈ R') : Climbed t R R' s .finished
  | waiting (hroot : t.root ∉ R') (hs : s.Counts t R') (h : ∀ q, ¬t.BecomesReady R R' q) : Climbed t R R' s .waiting
  | ready {job : Job} (hroot : t.root ∉ R') (hs : s.Counts t R') (fresh : t.IsFresh job)
      (h : ∀ q, t.BecomesReady R R' q ↔ q = job.block) : Climbed t R R' s (.ready job)

/-- A climb that goes on from the parent of a block has done what one from the block does. -/
theorem Climbed.of_insert {outcome : Climb} (hp : t.IsParent k p) (hpR : p ∈ R')
    (hc : Climbed t (insert k R) R' s outcome) : Climbed t R R' s outcome := by
  cases hc with
  | finished hfin => exact .finished hfin
  | waiting hroot hs hnone =>
      exact .waiting hroot hs fun q hq => hnone q ((BlockTree.becomesReady_insert_iff hp hpR).2 hq)
  | ready hroot hs hfresh hone =>
      exact .ready hroot hs hfresh fun q => (BlockTree.becomesReady_insert_iff hp hpR).symm.trans (hone q)

/-- A climb is carried out, and it goes as far as blocks are skipped. -/
theorem climb_ok (h : t.Tested) (hrows : t.Lists rows active) {levels : Nat} (hclosed : t.Closed R)
    (hk : t.Ready R k) (hlevels : t.size - k ≤ levels) (hs : s.Counts t R) :
    ∃ outcome s', climb t rows levels s k = .ok (outcome, s') ∧
      Climbed t R (t.resolvedAfter active R {k}) s' outcome := by
  have hdrained : ∀ {R : Set Nat} {k}, k ∈ t.resolvedAfter active R {k} := .drained rfl
  induction levels generalizing R s k with
  | zero =>
      have := hk.lt_size
      omega
  | succ levels ih =>
      rw [climb]
      by_cases hroot : k = t.root
      · subst hroot
        rw [parentOf_root h, ok_bind]
        exact ⟨_, _, rfl, .finished hdrained⟩
      · obtain ⟨p, hp⟩ := h.exists_parent hk.lt_size hroot
        have hlt := h.of_isParent hp
        obtain ⟨s₁, hs₁, hcounts, -⟩ := hs.resolveKid_ok h hp hk.unresolved
        obtain ⟨range, hrange, hstop, hown⟩ := h.ownRows_ok hlt.2
        obtain ⟨b, hb, hmeets⟩ := hrows.meets_ok hstop
        have hrootR := hk.root_notMem_insert h hclosed hroot
        have hparent := BlockTree.becomesReady_insert_parent_iff h hclosed hk hp
        rw [parentOf_of_isParent hp, ok_bind]
        dsimp only
        rw [hs₁, ok_bind, hcounts.fetch_eq hlt.2, ok_bind]
        split_ifs with hwait
        · have hleft := BlockTree.unresolvedKids_pos_iff.1 hwait
          have heq : t.resolvedAfter active R {k} = insert k R := BlockTree.resolvedAfter_eq_insert hp (.inl hleft)
          refine ⟨_, _, rfl, .waiting (heq ▸ hrootR) (heq ▸ hcounts) fun q hq => ?_⟩
          rw [heq] at hq
          obtain ⟨c, hc, hcR⟩ := hleft
          exact hcR (hq.1.kids c (hq.eq_parent hp ▸ hc))
        · have hkids := BlockTree.unresolvedKids_eq_zero_iff.1 (Nat.eq_zero_of_not_pos hwait)
          rw [hrange, ok_bind, hb, ok_bind]
          cases b with
          | true =>
              obtain ⟨i, hi, hle⟩ := hmeets.1 rfl
              have heq : t.resolvedAfter active R {k} = insert k R := BlockTree.resolvedAfter_eq_insert hp
                (.inr ⟨i, hi, (hown i).1 hle⟩)
              obtain ⟨job, hjob, hblock⟩ := h.job_ok hlt.2
              rw [if_pos rfl, hjob, ok_bind]
              refine ⟨_, _, rfl, .ready (heq ▸ hrootR) (heq ▸ hcounts) (BlockTree.isFresh_of_job hjob).1 fun q => ?_⟩
              rw [heq, hblock]
              refine ⟨fun hq => hq.eq_parent hp, ?_⟩
              rintro rfl
              exact hparent.2 hkids
          | false =>
              have hidle : ∀ i ∈ active, t.blockOfRow i ≠ p := fun i hi heq =>
                Bool.false_ne_true (hmeets.2 ⟨i, hi, (hown i).2 heq⟩)
              obtain ⟨outcome, s', hok, hclimbed⟩ := ih (hclosed.insert hk) (hparent.2 hkids).1 (by omega) hcounts
              have heq := BlockTree.resolvedAfter_insert hp hk.unresolved hidle hkids
              rw [heq] at hclimbed
              exact ⟨outcome, s', hok, hclimbed.of_insert hp (heq ▸ hdrained)⟩

/-- The job is queued again after it changed. -/
def again (refactored : Bool) (job : Job) : Job :=
  { job with changed := false, mark := if refactored then none else job.mark }

/-- The blocks of the unchanged jobs. -/
def drainedBlocks (jobs : List Job) : Set Nat :=
  {k | ∃ job ∈ jobs, job.changed = false ∧ job.block = k}

/-- The next jobs are the changed ones of the last sweep and one for each block that becomes ready. -/
structure Queued (t : BlockTree) (refactored : Bool) (jobs : List Job) (R R' : Set Nat) (queue : List Job) : Prop where
  mem_iff : ∀ job, job ∈ queue ↔ (∃ g ∈ jobs, g.changed = true ∧ again refactored g = job) ∨
    (t.IsFresh job ∧ t.BecomesReady R R' job.block)
  ascending : queue.Pairwise fun a b => a.block < b.block

theorem drainedBlocks_cons_of_changed {job : Job} (h : job.changed = true) :
    drainedBlocks (job :: jobs) = drainedBlocks jobs := by
  ext k
  simp [drainedBlocks, h]

theorem drainedBlocks_cons {job : Job} (h : job.changed = false) :
    drainedBlocks (job :: jobs) = {job.block} ∪ drainedBlocks jobs := by
  ext k
  simp [drainedBlocks, h, eq_comm (a := k)]

/-- Every job of the next sweep lies at or above one of the last sweep. -/
theorem Queued.exists_le (h : t.Tested)
    (hqueued : Queued t refactored jobs R (t.resolvedAfter active R (drainedBlocks jobs)) queue) {job : Job}
    (hjob : job ∈ queue) : ∃ g ∈ jobs, g.block ≤ job.block := by
  rcases (hqueued.mem_iff job).1 hjob with ⟨g, hg, -, rfl⟩ | ⟨-, hready, c, hc, hcR⟩
  · exact ⟨g, hg, le_rfl⟩
  · obtain ⟨d, ⟨g, hg, -, rfl⟩, hdc⟩ := BlockTree.exists_drained (hready.kids c hc) hcR
    exact ⟨g, hg, h.le_of_descends (hdc.tail hc)⟩

/-- A job in front of the others goes in front of the queue. -/
theorem Queued.pairwise_cons (h : t.Tested)
    (hqueued : Queued t refactored jobs R (t.resolvedAfter active R (drainedBlocks jobs)) queue) (job : Job)
    (hlt : ∀ g ∈ jobs, job.block < g.block) : (job :: queue).Pairwise fun a b => a.block < b.block := by
  refine List.pairwise_cons.2 ⟨fun q hq => ?_, hqueued.ascending⟩
  obtain ⟨g, hg, hle⟩ := hqueued.exists_le h hq
  exact (hlt g hg).trans_le hle

/-- What becomes ready by one job after the other becomes ready by both. -/
theorem becomesReady_resolvedAfter_iff {D : Set Nat} {q : Nat} (hR' : R' = t.resolvedAfter active R {k}) :
    t.BecomesReady R (t.resolvedAfter active R' D) q ↔
      t.BecomesReady R' (t.resolvedAfter active R' D) q ∨ (t.BecomesReady R R' q ∧ q ∉ D) := by
  constructor
  · rintro ⟨hq, c, hc, hcR⟩
    by_cases hall : ∀ c, t.IsParent c q → c ∈ R'
    · refine .inr ⟨⟨⟨hq.lt_size, fun h => hq.unresolved (.before h), hall⟩, c, hc, hcR⟩, fun h => ?_⟩
      exact hq.unresolved (.drained h)
    · push Not at hall
      exact .inl ⟨hq, hall⟩
  · rintro (⟨hq, c, hc, hcR⟩ | ⟨⟨hq, c, hc, hcR⟩, hD⟩)
    · exact ⟨hq, c, hc, fun h => hcR (hR' ▸ .before h)⟩
    · exact ⟨hq.after hD, c, hc, hcR⟩

theorem resolvedAfter_drainedBlocks_nil : t.resolvedAfter active R (drainedBlocks []) = R := by
  ext k
  refine ⟨fun hk => ?_, .before⟩
  by_contra hkR
  obtain ⟨d, ⟨g, hg, -⟩, -⟩ := BlockTree.exists_drained hk hkR
  cases hg

theorem queued_nil : Queued t refactored [] R R [] where
  mem_iff := fun job => by
    refine ⟨nofun, ?_⟩
    rintro (⟨g, hg, -⟩ | ⟨-, hq, c, hc, hcR⟩)
    · cases hg
    · exact absurd (hq.kids c hc) hcR
  ascending := .nil

/-- A changed job is queued again. -/
theorem Queued.cons_changed (h : t.Tested) {job : Job}
    (hqueued : Queued t refactored jobs R (t.resolvedAfter active R (drainedBlocks jobs)) queue)
    (hchanged : job.changed = true) (hlt : ∀ g ∈ jobs, job.block < g.block) : Queued t refactored (job :: jobs) R
      (t.resolvedAfter active R (drainedBlocks (job :: jobs))) (again refactored job :: queue) := by
  rw [drainedBlocks_cons_of_changed hchanged]
  refine ⟨fun g => ?_, hqueued.pairwise_cons h (again refactored job) hlt⟩
  rw [List.mem_cons, hqueued.mem_iff]
  simp only [List.mem_cons, exists_eq_or_imp, hchanged, true_and, or_assoc]
  rw [eq_comm]

section Unchanged

variable {R₁ : Set Nat} {job : Job}
  (hqueued : Queued t refactored jobs R₁ (t.resolvedAfter active R₁ (drainedBlocks jobs)) queue)
  (hchanged : job.changed = false) (hR₁ : R₁ = t.resolvedAfter active R {job.block})

include hqueued hchanged hR₁

/-- What the rest of the jobs queue, and what becomes ready by an unchanged job in front of them. -/
theorem Queued.mem_iff_cons (g : Job) : ((∃ a ∈ job :: jobs, a.changed = true ∧ again refactored a = g) ∨
    (t.IsFresh g ∧ t.BecomesReady R (t.resolvedAfter active R₁ (drainedBlocks jobs)) g.block)) ↔
      g ∈ queue ∨ (t.IsFresh g ∧ t.BecomesReady R R₁ g.block ∧ g.block ∉ drainedBlocks jobs) := by
  rw [hqueued.mem_iff, becomesReady_resolvedAfter_iff hR₁]
  simp only [List.mem_cons, exists_eq_or_imp, hchanged, Bool.false_eq_true, false_and, false_or, and_or_left, or_assoc]

/-- Nothing is queued for an unchanged job by which no block becomes ready. -/
theorem Queued.cons_waiting (hnone : ∀ q, ¬t.BecomesReady R R₁ q) : Queued t refactored (job :: jobs) R
    (t.resolvedAfter active R₁ (drainedBlocks jobs)) queue where
  mem_iff := fun g => by
    rw [hqueued.mem_iff_cons hchanged hR₁]
    simp only [hnone, false_and, and_false, or_false]
  ascending := hqueued.ascending

/-- The block that becomes ready by an unchanged job comes before the jobs that are not drained yet. -/
theorem Queued.cons_ready (h : t.Tested) {parent : Job} (hfresh : t.IsFresh parent)
    (hone : ∀ q, t.BecomesReady R R₁ q ↔ q = parent.block) (hbefore : ∀ g ∈ jobs, parent.block < g.block) :
    Queued t refactored (job :: jobs) R (t.resolvedAfter active R₁ (drainedBlocks jobs)) (parent :: queue) where
  mem_iff := fun g => by
    have hlate : parent.block ∉ drainedBlocks jobs := by
      rintro ⟨g, hg, -, heq⟩
      exact (hbefore g hg).ne' heq
    rw [hqueued.mem_iff_cons hchanged hR₁, List.mem_cons, or_comm, hone]
    refine or_congr_right ⟨?_, fun hg => hg.1.eq_of_block hfresh hg.2.1⟩
    rintro rfl
    exact ⟨hfresh, rfl, hlate⟩
  ascending := hqueued.pairwise_cons h parent hbefore

end Unchanged

/-- Draining the jobs of a sweep is carried out. It ends the run if the root is resolved, and queues the next jobs
otherwise. -/
theorem drain_ok (h : t.Tested) (hrows : t.Lists rows active) (hclosed : t.Closed R)
    (hready : ∀ job ∈ jobs, t.Ready R job.block) (hasc : jobs.Pairwise fun a b => a.block < b.block)
    (hs : s.Counts t R) (hroot : t.root ∉ R) (hR' : R' = t.resolvedAfter active R (drainedBlocks jobs)) :
    (t.root ∈ R' ∧ ∃ s', drain t rows refactored jobs s = .ok (none, s')) ∨
    (t.root ∉ R' ∧ ∃ queue s', drain t rows refactored jobs s = .ok (some queue, s') ∧ s'.Counts t R' ∧
      Queued t refactored jobs R R' queue) := by
  induction jobs generalizing R R' s with
  | nil =>
      obtain rfl := hR'.trans resolvedAfter_drainedBlocks_nil
      exact .inr ⟨hroot, [], s, rfl, hs, queued_nil⟩
  | cons job rest ih =>
      obtain ⟨hlt, hasc⟩ := List.pairwise_cons.1 hasc
      have hjob := hready job List.mem_cons_self
      have hrest : ∀ g ∈ rest, t.Ready R g.block := fun g hg => hready g (List.mem_cons_of_mem job hg)
      subst hR'
      rw [drain]
      cases hchanged : job.changed with
      | true =>
          rw [if_pos rfl]
          rcases ih hclosed hrest hasc hs hroot (congrArg _ (drainedBlocks_cons_of_changed hchanged)) with
            ⟨hfin, s', hok⟩ | ⟨hfin, queue, s', hok, hs', hqueued⟩
          · exact .inl ⟨hfin, s', by simp only [hok]; rfl⟩
          · rw [drainedBlocks_cons_of_changed hchanged] at hqueued
            exact .inr ⟨hfin, again refactored job :: queue, s', by simp only [hok]; rfl, hs',
              hqueued.cons_changed h hchanged hlt⟩
      | false =>
          rw [drainedBlocks_cons hchanged, ← BlockTree.resolvedAfter_resolvedAfter]
          obtain ⟨outcome, s₁, hclimb, hclimbed⟩ := climb_ok h hrows hclosed hjob (Nat.sub_le _ _) hs
          have hclosed₁ : t.Closed (t.resolvedAfter active R {job.block}) :=
            hclosed.resolvedAfter fun k hk => Set.mem_singleton_iff.1 hk ▸ hjob.kids
          have hrest₁ : ∀ g ∈ rest, t.Ready (t.resolvedAfter active R {job.block}) g.block := fun g hg =>
            (hrest g hg).after fun heq => (hlt g hg).ne' heq
          rw [if_neg Bool.false_ne_true, hclimb, ok_bind]
          cases hclimbed with
          | finished hfin =>
              exact .inl ⟨.before hfin, s₁, rfl⟩
          | waiting hroot₁ hs₁ hnone =>
              rcases ih hclosed₁ hrest₁ hasc hs₁ hroot₁ rfl with ⟨hfin, s', hok⟩ | ⟨hfin, queue, s', hok, hs', hqueued⟩
              · exact .inl ⟨hfin, s', hok⟩
              · exact .inr ⟨hfin, queue, s', hok, hs', hqueued.cons_waiting hchanged rfl hnone⟩
          | @ready parent hroot₁ hs₁ hfresh hone =>
              obtain ⟨hparent, c, hc, hcR⟩ := (hone parent.block).2 rfl
              have hbefore : ∀ g ∈ rest, parent.block < g.block := fun g hg =>
                h.lt_of_becomes_ready hclosed₁ hparent hc hcR (hrest g hg) (hlt g hg)
              rcases ih hclosed₁ hrest₁ hasc hs₁ hroot₁ rfl with ⟨hfin, s', hok⟩ | ⟨hfin, queue, s', hok, hs', hqueued⟩
              · exact .inl ⟨hfin, s', by simp only [hok]; rfl⟩
              · exact .inr ⟨hfin, parent :: queue, s', by simp only [hok]; rfl, hs',
                  hqueued.cons_ready hchanged rfl h hfresh hone hbefore⟩

/-- The blocks `R` are resolved, the counters say so, and the jobs are the blocks that are ready. -/
structure Stands (t : BlockTree) (R : Set Nat) (s : Schedule) : Prop where
  closed : t.Closed R
  lt_size : ∀ k ∈ R, k < t.size
  root_unresolved : t.root ∉ R
  counts : s.Counts t R
  ready_iff : ∀ k, (∃ job ∈ s.jobs, job.block = k) ↔ t.Ready R k
  ascending : s.jobs.Pairwise fun a b => a.block < b.block

/-- A block has at most one job. -/
theorem Stands.eq_of_block (hs : s.Stands t R) {a b : Job} (ha : a ∈ s.jobs) (hb : b ∈ s.jobs)
    (h : a.block = b.block) : a = b := by
  have hnd : (s.jobs.map (·.block)).Nodup := List.pairwise_map.2 (hs.ascending.imp Nat.ne_of_lt)
  exact List.inj_on_of_nodup_map hnd ha hb h

/-- As long as the root is not resolved, some block is ready. -/
theorem Stands.jobs_ne_nil (h : t.Tested) (hs : s.Stands t R) : s.jobs ≠ [] := by
  obtain ⟨b, hready, -⟩ := h.exists_ready (Nat.sub_lt h.size_pos Nat.one_pos) hs.root_unresolved
  obtain ⟨job, hjob, -⟩ := (hs.ready_iff _).2 hready
  exact List.ne_nil_of_mem hjob

/-- The blocks that have no job at or below them. -/
def resolved (t : BlockTree) (s : Schedule) : Set Nat :=
  {k | k < t.size ∧ ∀ job ∈ s.jobs, ¬t.Descends job.block k}

/-- The resolved blocks can be told from the jobs. -/
theorem Stands.eq_resolved (h : t.Tested) (hs : s.Stands t R) : R = s.resolved t := by
  ext k
  refine ⟨fun hk => ⟨hs.lt_size k hk, fun job hjob hd => ?_⟩, fun hk => ?_⟩
  · exact ((hs.ready_iff _).1 ⟨job, hjob, rfl⟩).unresolved (hs.closed.of_descends hd hk)
  · by_contra hkR
    obtain ⟨b, hready, hd⟩ := h.exists_ready hk.1 hkR
    obtain ⟨job, hjob, rfl⟩ := (hs.ready_iff b).2 hready
    exact hk.2 job hjob hd

/-- While the root is ready, it is the only job. -/
theorem Stands.jobs_of_root (h : t.Tested) (hs : s.Stands t R) {job : Job} (hjob : job ∈ s.jobs)
    (hroot : job.block = t.root) : ∀ g ∈ s.jobs, g.block = t.root := by
  intro g hg
  have hready := (hs.ready_iff _).1 ⟨g, hg, rfl⟩
  by_contra hne
  exact ((hs.ready_iff _).1 ⟨job, hjob, hroot⟩).not_descends hs.closed hne hready.unresolved
    (h.descends_root hready.lt_size)

/-- Of two jobs none is below the other, so their rows and their columns are apart. -/
theorem Stands.disjoint (h : t.Tested) (hs : s.Stands t R) (hcovers : ∀ job ∈ s.jobs, job.Covers t) :
    s.jobs.Pairwise fun a b => a.rows.stop ≤ b.rows.start ∧ a.cols.stop ≤ b.cols.start := by
  refine hs.ascending.imp_of_mem fun {a b} ha hb hlt => ?_
  have hready := (hs.ready_iff _).1 ⟨a, ha, rfl⟩
  have hapart := ((hs.ready_iff _).1 ⟨b, hb, rfl⟩).not_descends hs.closed hlt.ne hready.unresolved
  exact ⟨h.stop_le_start h.rowStart_chain (hcovers a ha).1 (hcovers b hb).1 hlt hapart,
    h.stop_le_start h.colStart_chain (hcovers a ha).2 (hcovers b hb).2 hlt hapart⟩

theorem inter_Iio_succ_of_notMem (hk : k ∉ R) : R ∩ Set.Iio (k + 1) = R ∩ Set.Iio k := by
  ext a
  simp only [Set.mem_inter_iff, Set.mem_Iio]
  refine and_congr_right fun ha => ?_
  have : a ≠ k := fun heq => hk (heq ▸ ha)
  omega

theorem inter_Iio_succ_of_mem (hk : k ∈ R) : R ∩ Set.Iio (k + 1) = insert k (R ∩ Set.Iio k) := by
  ext a
  simp only [Set.mem_inter_iff, Set.mem_Iio, Set.mem_insert_iff]
  constructor
  · rintro ⟨ha, hlt⟩
    rcases Nat.lt_succ_iff_lt_or_eq.1 hlt with hlt | heq
    · exact .inr ⟨ha, hlt⟩
    · exact .inl heq
  · rintro (rfl | ⟨ha, hlt⟩)
    · exact ⟨hk, Nat.lt_succ_self a⟩
    · exact ⟨ha, by omega⟩

/-- No block waits for the root. -/
theorem Counts.insert_root (h : t.Tested) (hs : s.Counts t R) : s.Counts t (insert t.root R) := by
  refine hs.trans (table_congr fun p _ => ?_)
  rw [BlockTree.unresolvedKids, BlockTree.unresolvedKids]
  congr 1
  ext c
  refine and_congr_right fun hc => not_congr (or_iff_right fun heq => ?_).symm
  have hlt := h.of_isParent hc
  rw [heq, BlockTree.root] at hlt
  omega

/-- The blocks below `k` are seeded, those among them that are idle are resolved. -/
structure Seeding (t : BlockTree) (active : List Nat) (k : Nat) (s : Schedule) : Prop where
  counts : s.Counts t (t.idle active ∩ Set.Iio k)
  mem_iff : ∀ job, job ∈ s.jobs ↔ t.IsFresh job ∧ t.Ready (t.idle active) job.block ∧ job.block < k
  ascending : s.jobs.Pairwise fun a b => a.block < b.block

/-- A block that is not ready adds no job. -/
theorem Seeding.mem_iff_succ (hs : Seeding t active k s) (hk : ¬t.Ready (t.idle active) k) (job : Job) :
    job ∈ s.jobs ↔ t.IsFresh job ∧ t.Ready (t.idle active) job.block ∧ job.block < k + 1 := by
  rw [hs.mem_iff]
  refine and_congr_right fun _ => and_congr_right fun hjob => ?_
  have : job.block ≠ k := fun heq => hk (heq ▸ hjob)
  omega

/-- A block that is ready adds its job. -/
theorem Seeding.push (hs : Seeding t active k s) (hk : t.Ready (t.idle active) k) {job : Job} (hfresh : t.IsFresh job)
    (hblock : job.block = k) : Seeding t active (k + 1) { s with jobs := s.jobs ++ [job] } where
  counts := by
    rw [inter_Iio_succ_of_notMem hk.unresolved]
    exact hs.counts
  mem_iff g := by
    rw [List.mem_append, List.mem_singleton, hs.mem_iff]
    constructor
    · rintro (⟨hg, hready, hlt⟩ | rfl)
      · exact ⟨hg, hready, by omega⟩
      · exact ⟨hfresh, hblock ▸ hk, by omega⟩
    · rintro ⟨hg, hready, hlt⟩
      rcases Nat.lt_succ_iff_lt_or_eq.1 hlt with hlt | heq
      · exact .inl ⟨hg, hready, hlt⟩
      · exact .inr (hg.eq_of_block hfresh (heq.trans hblock.symm))
  ascending := by
    refine List.pairwise_append.2 ⟨hs.ascending, List.pairwise_singleton _ _, fun g hg a ha => ?_⟩
    rw [List.mem_singleton.1 ha, hblock]
    exact ((hs.mem_iff g).1 hg).2.2

theorem Seeding.seedBlock_ok (h : t.Tested) (hrows : t.Lists rows active) (hk : k < t.size)
    (hs : Seeding t active k s) : ∃ s', seedBlock t rows s k = .ok s' ∧ Seeding t active (k + 1) s' := by
  obtain ⟨range, hrange⟩ := h.subtreeRows_ok hk
  obtain ⟨b, hb, hmeets⟩ := hrows.meets_ok (h.subtreeRows_stop hrange)
  have hactive : b = true ↔ k ∉ t.idle active := by
    rw [hmeets]
    simp only [(h.mem_subtreeRows hrange).2, BlockTree.idle, Set.mem_ofPred_eq, hk, true_and]
    push Not
    rfl
  have hkids : t.unresolvedKids (t.idle active ∩ Set.Iio k) k = 0 ↔ ∀ c, t.IsParent c k → c ∈ t.idle active := by
    rw [BlockTree.unresolvedKids_eq_zero_iff]
    exact forall₂_congr fun c hc => and_iff_left (h.of_isParent hc).1
  rw [seedBlock, hs.counts.fetch_eq hk, ok_bind]
  split_ifs with hleft
  · have hbusy : k ∉ t.idle active := fun hidle => by
      obtain ⟨c, hc, hcR⟩ := BlockTree.unresolvedKids_pos_iff.1 (Nat.pos_of_ne_zero hleft)
      exact hcR ⟨BlockTree.closed_idle h c k hc hidle, (h.of_isParent hc).1⟩
    exact ⟨s, rfl, inter_Iio_succ_of_notMem hbusy ▸ hs.counts,
      hs.mem_iff_succ fun hready => hleft (hkids.2 hready.kids), hs.ascending⟩
  · rw [not_not, hkids] at hleft
    rw [hrange, ok_bind, hb, ok_bind]
    cases b with
    | true =>
        obtain ⟨job, hjob, hblock⟩ := h.job_ok hk
        rw [if_pos rfl, hjob, ok_bind]
        exact ⟨_, rfl, hs.push ⟨hk, hactive.1 rfl, hleft⟩ (BlockTree.isFresh_of_job hjob).1 hblock⟩
    | false =>
        have hidle : k ∈ t.idle active := by
          by_contra hbusy
          exact Bool.false_ne_true (hactive.2 hbusy)
        have hjobs := hs.mem_iff_succ fun hready => hready.unresolved hidle
        rw [if_neg Bool.false_ne_true]
        by_cases hroot : k = t.root
        · subst hroot
          rw [parentOf_root h, ok_bind]
          exact ⟨s, rfl, inter_Iio_succ_of_mem hidle ▸ hs.counts.insert_root h, hjobs, hs.ascending⟩
        · obtain ⟨p, hp⟩ := h.exists_parent hk hroot
          rw [parentOf_of_isParent hp, ok_bind]
          obtain ⟨s', hok, hcounts, hsame⟩ := hs.counts.resolveKid_ok h hp fun hmem => lt_irrefl k hmem.2
          exact ⟨s', hok, inter_Iio_succ_of_mem hidle ▸ hcounts, hsame.symm ▸ hjobs, hsame.symm ▸ hs.ascending⟩

/-- Seeding is carried out, and it queues the blocks that are ready when the idle ones are resolved. -/
theorem seed_ok (h : t.Tested) (hrows : t.Lists rows active) : ∃ s, seed t rows = .ok s ∧
    s.Counts t (t.idle active) ∧ (∀ job, job ∈ s.jobs ↔ t.IsFresh job ∧ t.Ready (t.idle active) job.block) ∧
    s.jobs.Pairwise fun a b => a.block < b.block := by
  have hstart : Seeding t active 0 ⟨t.kids.map List.length, []⟩ := by
    refine ⟨?_, fun job => by simp, .nil⟩
    rw [show t.idle active ∩ Set.Iio 0 = ∅ by simp]
    exact h.length_kids
  obtain ⟨s, hok, hs⟩ := foldlM_range (Seeding t active) hstart fun k hk s hs => hs.seedBlock_ok h hrows hk
  have hidle : t.idle active ∩ Set.Iio t.size = t.idle active :=
    Set.inter_eq_left.2 fun k hk => hk.1
  refine ⟨s, hok, hidle ▸ hs.counts, fun job => ?_, hs.ascending⟩
  rw [hs.mem_iff]
  exact and_congr_right fun _ => and_iff_left_of_imp BlockTree.Ready.lt_size

theorem Stands.of_seed (h : t.Tested) (hrows : t.Lists rows active) (hne : active ≠ []) (hok : seed t rows = .ok s) :
    s.Stands t (t.idle active) ∧ ∀ job ∈ s.jobs, t.IsFresh job := by
  obtain ⟨s₀, hseed, hcounts, hmem, hasc⟩ := seed_ok h hrows
  rw [hok, Except.ok.injEq] at hseed
  subst hseed
  refine ⟨⟨BlockTree.closed_idle h, fun k hk => hk.1, h.root_notMem_idle hne hrows.lt, hcounts, fun k => ?_, hasc⟩,
    fun job hjob => ((hmem job).1 hjob).1⟩
  constructor
  · rintro ⟨job, hjob, rfl⟩
    exact ((hmem job).1 hjob).2
  · intro hk
    obtain ⟨job, hjob, rfl⟩ := h.job_ok hk.lt_size
    exact ⟨job, (hmem job).2 ⟨(BlockTree.isFresh_of_job hjob).1, hk⟩, rfl⟩

/-- The next jobs are the blocks that are ready after the call. -/
theorem Queued.ready_iff (h : t.Tested) (hs : s.Stands t R)
    (hqueued : Queued t refactored s.jobs R (t.resolvedAfter active R (drainedBlocks s.jobs)) queue) :
    (∃ job ∈ queue, job.block = k) ↔ t.Ready (t.resolvedAfter active R (drainedBlocks s.jobs)) k := by
  constructor
  · rintro ⟨job, hjob, rfl⟩
    rcases (hqueued.mem_iff job).1 hjob with ⟨g, hg, hchanged, rfl⟩ | ⟨-, hready⟩
    · refine ((hs.ready_iff g.block).1 ⟨g, hg, rfl⟩).after ?_
      rintro ⟨a, ha, hunchanged, heq⟩
      rw [hs.eq_of_block ha hg heq, hchanged] at hunchanged
      cases hunchanged
    · exact hready.1
  · intro hk
    by_cases hall : ∀ c, t.IsParent c k → c ∈ R
    · have hkR : k ∉ R := fun hmem => hk.unresolved (.before hmem)
      obtain ⟨g, hg, rfl⟩ := (hs.ready_iff k).2 ⟨hk.lt_size, hkR, hall⟩
      cases hchanged : g.changed with
      | true => exact ⟨again refactored g, (hqueued.mem_iff _).2 (.inl ⟨g, hg, hchanged, rfl⟩), rfl⟩
      | false => exact absurd (.drained ⟨g, hg, hchanged, rfl⟩) hk.unresolved
    · push Not at hall
      obtain ⟨job, hjob, rfl⟩ := h.job_ok hk.lt_size
      exact ⟨job, (hqueued.mem_iff job).2 (.inr ⟨(BlockTree.isFresh_of_job hjob).1, hk, hall⟩), rfl⟩

/-- How a call that goes on to the next sweep can end, by what is resolved after it. -/
inductive Advanced (t : BlockTree) (active : List Nat) (refactored : Bool) (R : Set Nat) (jobs : List Job) :
    Option Status → Schedule → Prop
  | next {s : Schedule} (hne : active ≠ []) (stands : s.Stands t (t.resolvedAfter active R (drainedBlocks jobs)))
      (queued : Queued t refactored jobs R (t.resolvedAfter active R (drainedBlocks jobs)) s.jobs) :
      Advanced t active refactored R jobs none s
  | found {s : Schedule} (h : t.root ∈ drainedBlocks jobs ∨
      (active ≠ [] ∧ t.root ∈ t.resolvedAfter active R (drainedBlocks jobs))) :
      Advanced t active refactored R jobs (some .solutionFound) s
  | dropped {s : Schedule} (hnil : active = []) (hroot : t.root ∉ drainedBlocks jobs) :
      Advanced t active refactored R jobs (some .allRowsDropped) s

/-- The run ends at once if the root is an unchanged job. -/
theorem Stands.unchanged_root_iff (h : t.Tested) (hs : s.Stands t R) :
    (!s.jobs.any (·.changed) && s.atRoot t) = true ↔ t.root ∈ drainedBlocks s.jobs := by
  rw [Bool.and_eq_true, Bool.not_eq_true', List.any_eq_false, atRoot, List.any_eq_true]
  constructor
  · rintro ⟨hunchanged, job, hjob, hroot⟩
    exact ⟨job, hjob, by simpa using hunchanged job hjob, by simpa using hroot⟩
  · rintro ⟨job, hjob, hunchanged, hroot⟩
    refine ⟨fun g hg => ?_, job, hjob, by simpa using hroot⟩
    have hblocks := hs.jobs_of_root h hjob hroot g hg
    rw [hs.eq_of_block hg hjob (hblocks.trans hroot.symm), hunchanged]
    exact Bool.false_ne_true

/-- A call that goes on to the next sweep is carried out. -/
theorem Stands.advance_ok (h : t.Tested) (hrows : t.Lists rows active) (hs : s.Stands t R) (refactored : Bool) :
    ∃ status s', s.advance t rows refactored = .ok (status, s') ∧ Advanced t active refactored R s.jobs status s' := by
  have hready : ∀ job ∈ s.jobs, t.Ready R job.block := fun job hjob => (hs.ready_iff _).1 ⟨job, hjob, rfl⟩
  rw [advance]
  by_cases hroot : t.root ∈ drainedBlocks s.jobs
  · rw [if_pos ((hs.unchanged_root_iff h).2 hroot)]
    exact ⟨_, _, rfl, .found (.inl hroot)⟩
  · rw [if_neg fun htest => hroot ((hs.unchanged_root_iff h).1 htest)]
    by_cases hnil : active = []
    · rw [if_pos (by simpa using hrows.size_eq_zero_iff.2 hnil)]
      exact ⟨_, _, rfl, .dropped hnil hroot⟩
    · rw [if_neg (by simpa using fun hzero => hnil (hrows.size_eq_zero_iff.1 hzero))]
      rcases drain_ok h hrows hs.closed hready hs.ascending hs.counts hs.root_unresolved rfl
        with ⟨hfin, s', hok⟩ | ⟨hfin, queue, s', hok, hcounts, hqueued⟩
      · rw [hok, ok_bind]
        exact ⟨_, _, rfl, .found (.inr ⟨hnil, hfin⟩)⟩
      · rw [hok, ok_bind]
        have hdrained : ∀ k ∈ drainedBlocks s.jobs, t.Ready R k := by
          rintro k ⟨job, hjob, -, rfl⟩
          exact hready job hjob
        refine ⟨_, _, rfl, .next hnil ⟨hs.closed.resolvedAfter fun k hk => (hdrained k hk).kids, fun k hk => ?_, hfin,
          hcounts, fun k => hqueued.ready_iff h hs, hqueued.ascending⟩ hqueued⟩
        exact h.lt_size_of_resolvedAfter hs.lt_size (fun k hk => (hdrained k hk).lt_size) hk

/-- The job `g` is `job` with flags of its own. -/
structure Reflagged (job g : Job) : Prop where
  block_eq : g.block = job.block
  rows_eq : g.rows = job.rows
  cols_eq : g.cols = job.cols

theorem blocks_of_reflagged {jobs' : List Job} (h : List.Forall₂ Reflagged jobs jobs') :
    jobs'.map (·.block) = jobs.map (·.block) := by
  induction h with
  | nil => rfl
  | cons h _ ih => rw [List.map_cons, List.map_cons, h.block_eq, ih]

theorem covers_of_reflagged {jobs' : List Job} (h : List.Forall₂ Reflagged jobs jobs')
    (hcovers : ∀ job ∈ jobs, job.Covers t) : ∀ job ∈ jobs', job.Covers t := by
  induction h with
  | nil => exact nofun
  | @cons job g _ _ hflags _ ih =>
      intro a ha
      rcases List.mem_cons.1 ha with rfl | ha
      · rw [Job.Covers, hflags.block_eq, hflags.rows_eq, hflags.cols_eq]
        exact hcovers job List.mem_cons_self
      · exact ih (fun b hb => hcovers b (List.mem_cons_of_mem job hb)) a ha

theorem Stands.reflagged (hs : s.Stands t R) (hjobs : List.Forall₂ Reflagged s.jobs jobs) :
    Stands t R { s with jobs := jobs } := by
  have hblocks := blocks_of_reflagged hjobs
  refine ⟨hs.closed, hs.lt_size, hs.root_unresolved, hs.counts, fun k => ?_, ?_⟩
  · rw [← hs.ready_iff, ← List.mem_map, ← List.mem_map, hblocks]
  · have hasc := List.pairwise_map.2 hs.ascending
    rw [← hblocks] at hasc
    exact List.pairwise_map.1 hasc

end Schedule

end PolyProjection
