import Mathlib
import PolyProjection.Proofs.Dissection
import PolyProjection.Proofs.Engine.Replay
import PolyProjection.Proofs.Engine.Sound
import PolyProjection.Proofs.Factor.Subsystem
import PolyProjection.Proofs.TriangularSolve

/-! The Newton direction of a job. The triangular solves go over the active rows of the job with the columns of the
factor, and what they leave is told for any columns that the factor has. -/

namespace PolyProjection

set_option linter.unusedSectionVars false

variable {K : Type} [Field K] [LinearOrder K] [IsStrictOrderedRing K]

namespace Problem

variable {p : Problem K} {job : Job} {free free' act act' : ℕ → Bool} {sigma : K} {i k : ℕ} (hp : p.Accepted)
  (hjob : job.Covers p.tree)

include hp hjob

/-- The rows of a job are not coupled to rows before them. -/
theorem Accepted.apart : Apart (normal p.a free act sigma) job.rows.start job.rows.stop := by
  intro i htop hbottom k hk
  rw [normal_eq_sum, if_neg (by omega), add_zero]
  refine Finset.sum_eq_zero fun j _ => ?_
  by_cases hj : job.cols.start ≤ j ∧ j < job.cols.stop
  · have hzero : p.a.coeff k j = 0 := by
      by_contra hne
      exact absurd (hp.start_le_of_meets hjob hj hne) (not_le.2 hk)
    simp [activeCoeff, hzero]
  · simp [activeCoeff, hp.coeff_eq_zero hjob ⟨htop, hbottom⟩ hj]

/-- The entries between the rows of a job depend on the statuses of its rows and columns only. -/
theorem Accepted.normal_congr (hi : job.rows.start ≤ i ∧ i < job.rows.stop) (hact : act' i = act i)
    (hact' : act' k = act k) (hfree : ∀ j, job.cols.start ≤ j ∧ j < job.cols.stop → act i = true →
      p.a.coeff i j ≠ 0 → free' j = free j) : normal p.a free' act' sigma i k = normal p.a free act sigma i k := by
  rw [normal, normal, hact, hact']
  by_cases hboth : (act i && act k) = true
  · rw [if_pos hboth, if_pos hboth]
    congr 1
    refine Finset.sum_congr rfl fun j _ => ?_
    by_cases hmeets : p.a.coeff i j = 0
    · rw [hmeets, zero_mul, ite_self, ite_self]
    · have hj : job.cols.start ≤ j ∧ j < job.cols.stop := by
        by_contra hout
        exact hmeets (hp.coeff_eq_zero hjob hi hout)
      rw [hfree j hj (Bool.and_eq_true_iff.1 hboth).1 hmeets]
  · rw [if_neg hboth, if_neg hboth]

end Problem

namespace Engine

section Solve

variable (e : Engine K) (job : Job) (column : ℕ → List ℕ) (l : ℕ → ℕ → K) (d : ℕ → K)

/-- The half solution before the forward solve: from the mark on it begins with the right-hand side. -/
def forwardStart (i : ℕ) : K :=
  if min ((job.mark.map (max · job.rows.start)).getD job.rows.start) job.rows.stop ≤ i ∧ i < job.rows.stop then
    coord e.work.rhs i
  else coord e.work.fwd i

def halfSolution : ℕ → K :=
  (e.set.activeBetween job.rows.start job.rows.stop).foldl (LdlFactor.pass column l job.rows.stop (job.mark.getD 0))
    (e.forwardStart job)

def solution : ℕ → K :=
  (e.set.activeBetween job.rows.start job.rows.stop).foldr
    (LdlFactor.solveRow column l d (e.halfSolution job column l) job.rows.stop) (coord e.work.u)

/-- The direction of the rows of the job, and what the other rows had. -/
def newtonStep (i : ℕ) : K :=
  if job.rows.start ≤ i ∧ i < job.rows.stop then
    if (e.set.rowAt i).isActive then e.solution job column l d i - coord e.dlambda i else 0
  else coord e.work.t i

/-- The state when the Newton system of the job is solved. -/
def solved : Engine K :=
  { e with
    work := { e.work with
      fwd := table e.problem.nrows (e.halfSolution job column l)
      u := table e.problem.nrows (e.solution job column l d)
      t := table e.problem.nrows (e.newtonStep job column l d) }
    stats := { e.stats with solves := e.stats.solves + 1 } }

end Solve

variable {e : Engine K} {job : Job} {column : ℕ → List ℕ} {l : ℕ → ℕ → K} {d : ℕ → K}

theorem Sound.window (hs : e.Sound) (top : ℕ) {bottom : ℕ} (hle : bottom ≤ e.problem.nrows) :
    Window e.set.rows e.problem.nrows top bottom (e.set.activeBetween top bottom) :=
  Window.of_holds hs.regular.set.rows e.set.activeList_ascending hle

/-- A loop that sets the entries of a range. -/
theorem foldlM_span_table (lo : ℕ) {f : Array K → ℕ → Checked (Array K)} {n hi : ℕ} {x : Array K} (hx : x.size = n) (g : ℕ → K)
    (step : ∀ i, lo ≤ i → i < hi → ∀ y : Array K, y.size = n → f y i = .ok (y.setIfInBounds i (g i))) (hhi : hi ≤ n) :
    (span lo hi).foldlM f x = .ok (table n fun i => if lo ≤ i ∧ i < hi then g i else coord x i) := by
  obtain ⟨y, hok, hsize, hcoord⟩ := foldlM_pointwise_ok (x := x) (fun i _ => g i) (nodup_span lo hi)
    fun i hi' u hu => by
      obtain ⟨hlo, hlt⟩ := mem_span.1 hi'
      exact ⟨_, step i hlo hlt u (hu.trans hx), coord_set_step (by rw [hu, hx]; omega)⟩
  rw [hok, Except.ok.injEq]
  refine eq_table (hsize.trans hx) fun i hi' => ?_
  rw [← hx, ← hsize] at hi'
  rw [Array.getElem?_eq_getElem hi', ← coord_eq_getElem hi', hcoord]
  simp only [mem_span]

theorem Sound.solveJob_eq (hs : e.Sound) (hcolumns : e.factor.HasColumns e.problem.nrows column l d)
    (hstop : job.rows.stop ≤ e.problem.nrows) : e.solveJob job = .ok (e.solved job column l d) := by
  have hwindow := hs.window job.rows.start hstop
  have hreset := foldlM_span_table (min ((job.mark.map (max · job.rows.start)).getD job.rows.start) job.rows.stop)
    (f := fun fwd i => do store fwd i (← fetch e.work.rhs i)) hs.work.fwd (coord e.work.rhs) (fun i _ hi y hy => by
      rw [fetch_coord (by rw [hs.work.rhs]; omega), ok_bind, store_of_lt' _ (by rw [hy]; omega)]) hstop
  have hforward := hcolumns.forwardSolve_ok (ξ := e.forwardStart job) job.mark hwindow
  have hold : e.work.u = table e.problem.nrows (coord e.work.u) := by
    rw [← hs.work.u]
    exact eq_table_getD e.work.u 0
  have hback := hcolumns.backSolve_ok (ξ := e.halfSolution job column l) (υ := coord e.work.u) hwindow
    fun i hi => hcolumns.pivot i ((hwindow.between i hi).2.trans_le hwindow.le)
  rw [← hold] at hback
  have hstep := foldlM_span_table job.rows.start (f := fun t i => do
      if ← e.set.isRowActive i then
        store t i ((← fetch (table e.problem.nrows (e.solution job column l d)) i) - (← fetch e.dlambda i))
      else store t i 0) hs.work.t
    (fun i => if (e.set.rowAt i).isActive then e.solution job column l d i - coord e.dlambda i else 0)
    (fun i _ hi y hy => by
      have hi : i < e.problem.nrows := hi.trans_le hstop
      simp only [hs.isRowActive_ok hi, ok_bind]
      split_ifs
      · rw [fetch_table hi, ok_bind, fetch_coord (by rw [hs.regular.size_dlambda]; exact hi), ok_bind,
          store_of_lt' _ (by rw [hy]; exact hi)]
      · rw [store_of_lt' _ (by rw [hy]; exact hi)]) hstop
  unfold solveJob
  dsimp only
  rw [hreset, ok_bind]
  refine bind_eq_ok_iff.2 ⟨_, hforward, bind_eq_ok_iff.2 ⟨_, hback, bind_eq_ok_iff.2 ⟨_, hstep, rfl⟩⟩⟩

section Start

variable {i : ℕ}

/-- Before the mark the half solution begins with what was there. -/
theorem forwardStart_before (hi : i < job.mark.getD 0) : e.forwardStart job i = coord e.work.fwd i := by
  rw [forwardStart, if_neg]
  cases hmark : job.mark with
  | none => simp [hmark] at hi
  | some v =>
      simp only [hmark, Option.getD_some, Option.map_some] at hi ⊢
      omega

theorem forwardStart_after (hi : job.mark.getD 0 ≤ i) (hin : job.rows.start ≤ i ∧ i < job.rows.stop) :
    e.forwardStart job i = coord e.work.rhs i := by
  rw [forwardStart, if_pos]
  cases hmark : job.mark with
  | none => simpa using ⟨Or.inl hin.1, hin.2⟩
  | some v =>
      simp only [hmark, Option.getD_some, Option.map_some] at hi ⊢
      omega

theorem forwardStart_outside (hout : ¬(job.rows.start ≤ i ∧ i < job.rows.stop)) :
    e.forwardStart job i = coord e.work.fwd i := by
  rw [forwardStart, if_neg]
  cases job.mark with
  | none =>
      simp only [Option.map_none, Option.getD_none]
      omega
  | some v =>
      simp only [Option.map_some, Option.getD_some]
      omega

end Start

/-- The active rows of a job. -/
def jobRows (e : Engine K) (job : Job) : Finset ℕ :=
  (e.set.activeBetween job.rows.start job.rows.stop).toFinset

theorem mem_jobRows {i : ℕ} :
    i ∈ e.jobRows job ↔ (e.set.rowAt i).isActive = true ∧ job.rows.start ≤ i ∧ i < job.rows.stop := by
  rw [jobRows, List.mem_toFinset, ActiveSet.mem_activeBetween]

theorem jobRows_subset (hstop : job.rows.stop ≤ e.problem.nrows) : e.jobRows job ⊆ Finset.range e.problem.nrows :=
  fun _ hi => Finset.mem_range.2 ((mem_jobRows.1 hi).2.2.trans_le hstop)

theorem sum_jobRows (e : Engine K) (job : Job) (f : ℕ → K) :
    ((e.set.activeBetween job.rows.start job.rows.stop).map f).sum = ∑ i ∈ e.jobRows job, f i :=
  (List.sum_toFinset f ((e.set.activeBetween_ascending _ _).imp Nat.ne_of_lt)).symm

section Solutions

variable {s : Fill} {act : ℕ → Bool} {m : ℕ → ℕ → K} (hm : s.Eliminates act m)
  (hact : ∀ i, job.rows.start ≤ i → i < job.rows.stop → act i = (e.set.rowAt i).isActive)

include hm hact

/-- What was solved before the mark stays, and the rows from the mark on are solved. -/
theorem forwardSolved_halfSolution (hbefore : ForwardSolved m (e.jobRows job) (coord e.work.rhs) (coord e.work.fwd)
    (job.mark.getD 0)) : ForwardSolved m (e.jobRows job) (coord e.work.rhs)
      (e.halfSolution job (fun j => (s.column j).filter act) (lower m)) job.rows.stop := by
  have hlt := s.lt_column_filter act
  have hkept : ∀ i < job.mark.getD 0, e.halfSolution job (fun j => (s.column j).filter act) (lower m) i =
      e.forwardStart job i := fun i hi => by
    rw [halfSolution, LdlFactor.foldl_pass_eq hlt (e.set.activeBetween_ascending _ _)]
    simp [not_le.2 hi]
  intro i hi hbottom
  obtain ⟨hactive, htop, -⟩ := mem_jobRows.1 hi
  by_cases hmark : i < job.mark.getD 0
  · rw [hkept i hmark, forwardStart_before hmark, hbefore i hi hmark]
    congr 1
    refine Finset.sum_congr rfl fun j hj => ?_
    have hji := (Finset.mem_filter.1 hj).2
    rw [hkept j (hji.trans hmark), forwardStart_before (hji.trans hmark)]
  · have hstart := forwardStart_after (e := e) (not_lt.1 hmark) ⟨htop, hbottom⟩
    rw [halfSolution, LdlFactor.foldl_pass_eq hlt (e.set.activeBetween_ascending _ _), ← halfSolution, hstart, sum_jobRows,
      Finset.sum_filter]
    congr 1
    refine Finset.sum_congr rfl fun j hj => ?_
    obtain ⟨hactive', htop', hbottom'⟩ := mem_jobRows.1 hj
    by_cases hji : j < i
    · rw [if_pos hji]
      by_cases hhas : s.has i j = true
      · rw [if_pos ⟨List.mem_filter.2 ⟨Fill.mem_column.2 hhas, (hact i htop hbottom).trans hactive⟩, not_lt.1 hmark, hbottom⟩]
      · rw [if_neg fun hall => hhas (Fill.mem_column.1 (List.mem_of_mem_filter hall.1)),
          hm.lower_eq_zero i j hji fun hall => hhas hall.1, zero_mul]
    · rw [if_neg hji, if_neg fun hall => hji (hlt j i hall.1)]

theorem backSolved_solution : BackSolved m (e.jobRows job)
    (e.halfSolution job (fun j => (s.column j).filter act) (lower m))
    (e.solution job (fun j => (s.column j).filter act) (lower m) (pivot m)) := by
  have hlt := s.lt_column_filter act
  intro j hj
  obtain ⟨hactive, htop, hbottom⟩ := mem_jobRows.1 hj
  have hcolumn : ((s.column j).filter act).Pairwise (· < ·) := (Fill.column_ascending s j).filter _
  rw [solution, LdlFactor.foldr_solveRow_eq hlt (e.set.activeBetween_ascending _ _)
    (ActiveSet.mem_activeBetween.2 ⟨hactive, htop, hbottom⟩), ← List.sum_toFinset _
    ((hcolumn.sublist (List.takeWhile_sublist _)).imp Nat.ne_of_lt)]
  congr 1
  refine Finset.sum_subset (fun i hi => ?_) fun i hi hout => ?_
  · obtain ⟨hmem, hib⟩ := (LdlFactor.mem_takeWhile_lt hcolumn).1 (List.mem_toFinset.1 hi)
    have hji := hlt j i hmem
    exact Finset.mem_filter.2 ⟨mem_jobRows.2 ⟨(hact i (by omega) hib).symm.trans (List.of_mem_filter hmem), by omega, hib⟩, hji⟩
  · obtain ⟨hi, hji⟩ := Finset.mem_filter.1 hi
    obtain ⟨hactive', htop', hib⟩ := mem_jobRows.1 hi
    rw [hm.lower_eq_zero i j hji, zero_mul]
    rintro ⟨hhas, hacti, -⟩
    exact hout (List.mem_toFinset.2 ((LdlFactor.mem_takeWhile_lt hcolumn).2
      ⟨List.mem_filter.2 ⟨Fill.mem_column.2 hhas, hacti⟩, hib⟩))

end Solutions

end Engine

end PolyProjection
