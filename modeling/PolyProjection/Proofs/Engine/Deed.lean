import Mathlib
import PolyProjection.Proofs.Engine.Converged

/-! What is done to a state, told apart from the state it is done to: what is added to the entries of its vectors, the
rows that are dropped, the columns that are freed, and what is told on the way. Deeds that are done one after the other
add up, so the state at the end does not depend on their order. -/

namespace PolyProjection

set_option linter.unusedSectionVars false

variable {K : Type} [Field K] [LinearOrder K] [IsStrictOrderedRing K]

/-- The vectors that the work on a job writes. -/
inductive Quantity where
  | lambda
  | dlambda
  | c
  | cold
  | pa
  | rhs
  | fwd
  | u
  | t

def Engine.vector (e : Engine K) : Quantity → Array K
  | .lambda => e.lambda
  | .dlambda => e.dlambda
  | .c => e.work.c
  | .cold => e.work.cold
  | .pa => e.work.pa
  | .rhs => e.work.rhs
  | .fwd => e.work.fwd
  | .u => e.work.u
  | .t => e.work.t

structure Deed (K : Type) where
  shift : Quantity → ℕ → K
  dropped : List ℕ
  freed : List ℕ
  told : List (Event K)

namespace Deed

/-- Nothing but telling of events. -/
def telling (told : List (Event K)) : Deed K :=
  ⟨fun _ _ => 0, [], [], told⟩

/-- One deed after the other. -/
def followedBy (d d' : Deed K) : Deed K :=
  ⟨fun q i => d.shift q i + d'.shift q i, d.dropped ++ d'.dropped, d.freed ++ d'.freed, d.told ++ d'.told⟩

def all (ds : List (Deed K)) : Deed K :=
  ds.foldr followedBy (telling [])

/-- The deed takes the one state to the other. -/
structure Does (d : Deed K) (e e' : Engine K) : Prop where
  problem : e'.problem = e.problem
  sigma : e'.sigma = e.sigma
  factor : e'.factor = e.factor
  reference : e'.work.reference = e.work.reference
  shift : ∀ q i, coord (e'.vector q) i = coord (e.vector q) i + d.shift q i
  row : ∀ i, e'.set.rowAt i = if i ∈ d.dropped then .dropped else e.set.rowAt i
  column : ∀ j, e'.set.colAt j = if j ∈ d.freed then .free else e.set.colAt j
  dropped : e'.set.dropped.toList = e.set.dropped.toList ++ d.dropped
  freed : e'.log.colsFreed.toList = e.log.colsFreed.toList ++ d.freed
  told : e'.events.toList = e.events.toList ++ d.told

variable {d d' : Deed K} {ds ds' : List (Deed K)} {e e' e'' : Engine K}

theorem does_telling (e : Engine K) (heap : BreakHeap K) (stats : Statistics) (timers : Timers)
    (told : List (Event K)) : (telling told).Does e
      { e with heap := heap, stats := stats, timers := timers, events := e.events ++ told.toArray } := by
  refine ⟨rfl, rfl, rfl, rfl, fun q i => ?_, fun i => rfl, fun j => rfl, ?_, ?_, ?_⟩
  · cases q <;> exact (add_zero _).symm
  · exact (List.append_nil _).symm
  · exact (List.append_nil _).symm
  · simp [telling]

/-- Nothing is done if only the candidates, counts and timers change. -/
theorem does_nothing (e : Engine K) (heap : BreakHeap K) (stats : Statistics) (timers : Timers) :
    (telling []).Does e { e with heap := heap, stats := stats, timers := timers } := by
  simpa using does_telling e heap stats timers []

theorem Does.trans (h : d.Does e e') (h' : d'.Does e' e'') : (d.followedBy d').Does e e'' where
  problem := h'.problem.trans h.problem
  sigma := h'.sigma.trans h.sigma
  factor := h'.factor.trans h.factor
  reference := h'.reference.trans h.reference
  shift q i := by rw [h'.shift, h.shift, followedBy, add_assoc]
  row i := by
    rw [h'.row, h.row, followedBy]
    simp only [List.mem_append]
    split_ifs <;> simp_all
  column j := by
    rw [h'.column, h.column, followedBy]
    simp only [List.mem_append]
    split_ifs <;> simp_all
  dropped := by rw [h'.dropped, h.dropped, followedBy, List.append_assoc]
  freed := by rw [h'.freed, h.freed, followedBy, List.append_assoc]
  told := by rw [h'.told, h.told, followedBy, List.append_assoc]

/-- The states before and after say what was done. -/
theorem Does.unique (h : d.Does e e') (h' : d'.Does e e') : d' = d := by
  obtain ⟨shift, dropped, freed, told⟩ := d
  obtain ⟨shift', dropped', freed', told'⟩ := d'
  have hshift : shift' = shift := by
    funext q i
    exact add_left_cancel ((h'.shift q i).symm.trans (h.shift q i))
  have hdropped : dropped' = dropped := List.append_cancel_left (h'.dropped.symm.trans h.dropped)
  have hfreed : freed' = freed := List.append_cancel_left (h'.freed.symm.trans h.freed)
  have htold : told' = told := List.append_cancel_left (h'.told.symm.trans h.told)
  rw [hshift, hdropped, hfreed, htold]

/-! ### Deeds in another order -/

theorem shift_all (ds : List (Deed K)) (q : Quantity) (i : ℕ) :
    (all ds).shift q i = (ds.map fun d => d.shift q i).sum := by
  induction ds with
  | nil => rfl
  | cons d ds ih =>
      rw [List.map_cons, List.sum_cons, ← ih]
      rfl

theorem dropped_all (ds : List (Deed K)) : (all ds).dropped = ds.flatMap (·.dropped) := by
  induction ds with
  | nil => rfl
  | cons d ds ih =>
      rw [List.flatMap_cons, ← ih]
      rfl

theorem freed_all (ds : List (Deed K)) : (all ds).freed = ds.flatMap (·.freed) := by
  induction ds with
  | nil => rfl
  | cons d ds ih =>
      rw [List.flatMap_cons, ← ih]
      rfl

theorem told_all (ds : List (Deed K)) : (all ds).told = ds.flatMap (·.told) := by
  induction ds with
  | nil => rfl
  | cons d ds ih =>
      rw [List.flatMap_cons, ← ih]
      rfl

end Deed

theorem ActiveSet.rowStatus_ext {s s' : ActiveSet} (hsize : s'.rowStatus.size = s.rowStatus.size)
    (h : ∀ i, s'.rowAt i = s.rowAt i) : s'.rowStatus = s.rowStatus := by
  apply Array.ext hsize
  intro i hi' hi
  have hrow := h i
  rwa [rowAt, rowAt, Array.getElem?_eq_getElem hi', Array.getElem?_eq_getElem hi] at hrow

theorem ActiveSet.colStatus_ext {s s' : ActiveSet} (hsize : s'.colStatus.size = s.colStatus.size)
    (h : ∀ j, s'.colAt j = s.colAt j) : s'.colStatus = s.colStatus := by
  apply Array.ext hsize
  intro j hj' hj
  have hcol := h j
  rwa [colAt, colAt, Array.getElem?_eq_getElem hj', Array.getElem?_eq_getElem hj] at hcol

namespace Engine

/-- The vectors, the factor and the statuses of the states are the same, and their lists but for the order: the free
columns, the rows noted as dropped, the columns noted as freed, and the events. -/
structure SameUpToOrder (e e' : Engine K) : Prop where
  problem : e'.problem = e.problem
  sigma : e'.sigma = e.sigma
  factor : e'.factor = e.factor
  lambda : e'.lambda = e.lambda
  dlambda : e'.dlambda = e.dlambda
  work : e'.work = e.work
  rowStatus : e'.set.rowStatus = e.set.rowStatus
  colStatus : e'.set.colStatus = e.set.colStatus
  free : e'.set.free.toList.Perm e.set.free.toList
  dropped : e'.set.dropped.toList.Perm e.set.dropped.toList
  freed : e'.log.colsFreed.toList.Perm e.log.colsFreed.toList
  told : e'.events.toList.Perm e.events.toList

variable {e e₁ e₂ : Engine K} {ds ds' : List (Deed K)}

theorem size_vector (h : e.Sound) (q : Quantity) : (e.vector q).size = match q with
    | .c | .cold | .pa => e.problem.ncols
    | _ => e.problem.nrows := by
  cases q with
  | lambda => exact h.regular.size_lambda
  | dlambda => exact h.regular.size_dlambda
  | c => exact h.work.c
  | cold => exact h.work.cold
  | pa => exact h.work.pa
  | rhs => exact h.work.rhs
  | fwd => exact h.work.fwd
  | u => exact h.work.u
  | t => exact h.work.t

theorem work_eq_of_vectors (hreference : e₂.work.reference = e₁.work.reference)
    (hvector : ∀ q, e₂.vector q = e₁.vector q) : e₂.work = e₁.work := by
  have hc := hvector .c
  have hcold := hvector .cold
  have hpa := hvector .pa
  have hrhs := hvector .rhs
  have hfwd := hvector .fwd
  have hu := hvector .u
  have ht := hvector .t
  simp only [vector] at hc hcold hpa hrhs hfwd hu ht
  cases h₁ : e₁.work
  cases h₂ : e₂.work
  simp_all

/-- The order of the deeds does not matter to the state at the end. -/
theorem sameUpToOrder_of_perm (hs₁ : e₁.Sound) (hs₂ : e₂.Sound) (h₁ : (Deed.all ds).Does e e₁)
    (h₂ : (Deed.all ds').Does e e₂) (hperm : ds'.Perm ds) : SameUpToOrder e₁ e₂ := by
  have hproblem : e₂.problem = e₁.problem := h₂.problem.trans h₁.problem.symm
  have hdropped : (Deed.all ds').dropped.Perm (Deed.all ds).dropped := by
    rw [Deed.dropped_all, Deed.dropped_all]
    exact hperm.flatMap_right _
  have hfreed : (Deed.all ds').freed.Perm (Deed.all ds).freed := by
    rw [Deed.freed_all, Deed.freed_all]
    exact hperm.flatMap_right _
  have htold : (Deed.all ds').told.Perm (Deed.all ds).told := by
    rw [Deed.told_all, Deed.told_all]
    exact hperm.flatMap_right _
  have hvector : ∀ q, e₂.vector q = e₁.vector q := by
    intro q
    apply ext_coord
    · rw [size_vector hs₂, size_vector hs₁, hproblem]
    · intro i _
      rw [h₂.shift, h₁.shift, Deed.shift_all, Deed.shift_all, (hperm.map _).sum_eq]
  have hcolumn : ∀ j, e₂.set.colAt j = e₁.set.colAt j := by
    intro j
    simp only [h₂.column, h₁.column, hfreed.mem_iff]
  exact
    { problem := hproblem
      sigma := h₂.sigma.trans h₁.sigma.symm
      factor := h₂.factor.trans h₁.factor.symm
      lambda := hvector .lambda
      dlambda := hvector .dlambda
      work := work_eq_of_vectors (h₂.reference.trans h₁.reference.symm) hvector
      rowStatus := by
        apply ActiveSet.rowStatus_ext
        · rw [hs₂.regular.set.size_rowStatus, hs₁.regular.set.size_rowStatus, hproblem]
        · intro i
          simp only [h₂.row, h₁.row, hdropped.mem_iff]
      colStatus := by
        apply ActiveSet.colStatus_ext
        · rw [hs₂.regular.set.size_colStatus, hs₁.regular.set.size_colStatus, hproblem]
        · exact hcolumn
      free := (hproblem ▸ hs₁.columns).perm_free hs₂.columns hcolumn
      dropped := by
        rw [h₂.dropped, h₁.dropped]
        exact hdropped.append_left _
      freed := by
        rw [h₂.freed, h₁.freed]
        exact hfreed.append_left _
      told := by
        rw [h₂.told, h₁.told]
        exact htold.append_left _ }

end Engine

end PolyProjection
