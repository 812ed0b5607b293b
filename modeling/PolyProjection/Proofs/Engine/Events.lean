import Mathlib
import PolyProjection.Engine.LineSearch
import PolyProjection.Proofs.Engine.Request

/-! What the events of a line search change. A freed column takes its part out of the right-hand side; a dropped
row takes its share out of every column that it meets, and the break values of those columns move, but never to
before the present step. -/

namespace PolyProjection

set_option linter.unusedSectionVars false

variable {K : Type} [Field K] [LinearOrder K] [IsStrictOrderedRing K]

/-- Row `i` does not come before the mark. -/
def Reaches (mark : Option Nat) (i : Nat) : Prop :=
  ∃ k, mark = some k ∧ k ≤ i

theorem mark_ext {mark mark' : Option Nat} (h : ∀ i, Reaches mark' i ↔ Reaches mark i) : mark' = mark := by
  refine Option.ext fun k => ?_
  cases mark with
  | none =>
      cases mark' with
      | none => rfl
      | some l => simpa [Reaches] using h l
  | some m =>
      cases mark' with
      | none => simpa [Reaches] using h m
      | some l =>
          have hl := h l
          have hm := h m
          simp only [Reaches, Option.some.injEq, exists_eq_left', le_refl, true_iff, iff_true] at hl hm
          rw [Nat.le_antisymm hm hl]

theorem reaches_lower {mark : Option Nat} {k i : Nat} :
    Reaches (some ((mark.map (min · k)).getD k)) i ↔ Reaches mark i ∨ k ≤ i := by
  cases mark with
  | none => simp [Reaches]
  | some l => simp [Reaches]

/-- The break value of a held column that lies `value` beyond its bound and has the direction `p` at a step. It is not
before that step, and there is none if the column does not come to its bound before the full step. -/
def rekey? (step value p : K) (st : ColumnStatus) : Option K :=
  if Engine.movesInwards st p ∧ max step (step - value / p) < 1 then some (max step (step - value / p)) else none

theorem le_of_rekey? {step value p v : K} {st : ColumnStatus} (h : rekey? step value p st = some v) : step ≤ v := by
  rw [rekey?] at h
  split_ifs at h
  rw [Option.some.injEq] at h
  rw [← h]
  exact le_max_left ..

namespace Engine

variable {e e' : Engine K} {i j : Nat}

/-- A column is taken into the candidates, moved among them or taken out of them. -/
theorem Regular.of_rekeyColumn (h : e.Regular) {step p value : K} {status : ColumnStatus}
    (hok : e.rekeyColumn j step p value status = .ok e') :
    ∃ heap, e' = { e with heap := heap } ∧ heap.Valid (e.problem.ncols + e.problem.nrows) ∧
      ∀ c, heap.keyAt c = if c = j then rekey? step value p status else e.heap.keyAt c := by
  rw [rekeyColumn, placeColumn, Scalar.max_exact] at hok
  rw [rekey?]
  split_ifs at hok with hmoves
  · rw [Bool.and_eq_true, decide_eq_true_eq] at hmoves
    rw [if_pos hmoves]
    simp only [bind_eq_ok_iff] at hok
    obtain ⟨-, -, b, hb, hok⟩ := hok
    have hb := (h.heap.of_contains hb).2
    cases b with
    | false =>
        simp only [Bool.false_eq_true, if_false, bind_eq_ok_iff, pure_eq_ok_iff] at hok
        obtain ⟨heap, hheap, rfl⟩ := hok
        obtain ⟨-, -, hvalid, hkeys⟩ := h.heap.of_insert hheap
        exact ⟨heap, rfl, hvalid, hkeys⟩
    | true =>
        simp only [if_true, bind_eq_ok_iff, pure_eq_ok_iff] at hok
        obtain ⟨heap, hheap, rfl⟩ := hok
        obtain ⟨hvalid, hkeys⟩ := h.heap.of_update hb.symm hheap
        exact ⟨heap, rfl, hvalid, hkeys⟩
  · rw [Bool.and_eq_true, decide_eq_true_eq] at hmoves
    rw [if_neg hmoves]
    obtain ⟨b, hb, hok⟩ := bind_eq_ok_iff.1 hok
    have hb := (h.heap.of_contains hb).2
    cases b with
    | false =>
        simp only [Bool.false_eq_true, if_false, pure_bind_ok, pure_eq_ok_iff] at hok
        refine ⟨e.heap, hok.symm, h.heap, fun c => ?_⟩
        split_ifs with hc
        · rw [hc]
          exact Option.not_isSome_iff_eq_none.1 (by rw [← hb]; decide)
        · rfl
    | true =>
        simp only [if_true, bind_eq_ok_iff, pure_eq_ok_iff] at hok
        obtain ⟨heap, hheap, rfl⟩ := hok
        obtain ⟨hvalid, hkeys⟩ := h.heap.of_delete hb.symm hheap
        exact ⟨heap, rfl, hvalid, hkeys⟩

/-- A row leaves the working set, with its multiplier. -/
theorem Regular.of_deactivate (h : e.Regular) {set : ActiveSet} (hok : e.set.deactivate i = .ok set) (v w : K)
    (work : Workspace K) : Regular { e with
      set := set
      lambda := e.lambda.setIfInBounds i v
      dlambda := e.dlambda.setIfInBounds i w
      work := work } := by
  obtain ⟨hi, -, hagree, rows, hform⟩ := h.set.of_deactivate hok
  refine ⟨h.problem, hagree, fun k => ?_, fun k => ?_, h.heap, by simp [h.size_lambda], by simp [h.size_dlambda]⟩
  · have hrow : set.rowAt k = if k = i then .dropped else e.set.rowAt k := by
      rw [hform]
      exact ActiveSet.rowAt_set rfl (by rw [h.set.size_rowStatus]; exact hi) k
    simp only [hrow]
    split_ifs
    · trivial
    · exact h.rows_fit k
  · rw [hform]
    exact h.cols_fit k

/-- The right-hand side of the active rows loses its part of a list of entries. -/
theorem Regular.of_shiftEntries (h : e.Regular) {v : K → K} (hv : v 0 = 0) {l : List (Nat × K)}
    (hl : (l.map Prod.fst).Nodup) (hrow : ∀ x ∈ l, x.1 < e.problem.nrows) {rhs rhs' : Array K}
    {mark mark' : Option Nat}
    (hok : l.foldlM (fun (rhs, mark) (i, a) => do
      if ← e.set.isRowActive i then
        return (← adjust rhs i (· - v a), some ((mark.map (min · i)).getD i))
      else return (rhs, mark)) (rhs, mark) = .ok (rhs', mark')) :
    (∀ k, coord rhs' k = coord rhs k - if (e.set.rowAt k).isActive then v (entryValue l k) else 0) ∧
      ∀ k, Reaches mark' k ↔ Reaches mark k ∨ ∃ x ∈ l, (e.set.rowAt x.1).isActive ∧ x.1 ≤ k := by
  induction l generalizing rhs mark with
  | nil =>
      rw [List.foldlM_nil, pure_eq_ok_iff, Prod.mk.injEq] at hok
      obtain ⟨rfl, rfl⟩ := hok
      exact ⟨fun k => by simp [hv], fun k => by simp⟩
  | cons x l ih =>
      obtain ⟨r, a⟩ := x
      rw [List.map_cons, List.nodup_cons] at hl
      rw [List.foldlM_cons, bind_eq_ok_iff] at hok
      obtain ⟨⟨rhs₁, mark₁⟩, hstep, hok⟩ := hok
      obtain ⟨hrhs, hmark⟩ := ih hl.2 (fun y hy => hrow y (List.mem_cons_of_mem _ hy)) hok
      have hactive := h.set.isRowActive_eq (hrow (r, a) List.mem_cons_self)
      simp only [hactive, ok_bind] at hstep
      cases hact : (e.set.rowAt r).isActive with
      | false =>
          simp only [hact, Bool.false_eq_true, if_false, pure_eq_ok_iff, Prod.mk.injEq] at hstep
          obtain ⟨rfl, rfl⟩ := hstep
          refine ⟨fun k => ?_, fun k => ?_⟩
          · rw [hrhs, entryValue_cons]
            by_cases hk : k = r
            · rw [hk, hact]
              simp
            · rw [if_neg hk]
          · rw [hmark]
            simp [hact]
      | true =>
          simp only [hact, if_true, bind_eq_ok_iff, pure_eq_ok_iff, Prod.mk.injEq, adjust_eq_ok_iff] at hstep
          obtain ⟨_, ⟨hlt, rfl⟩, rfl, rfl⟩ := hstep
          refine ⟨fun k => ?_, fun k => ?_⟩
          · rw [hrhs, entryValue_cons, coord_setIfInBounds]
            by_cases hk : k = r
            · rw [if_pos ⟨hk, hlt⟩, hk, hact, entryValue_of_not_mem hl.1]
              simp [hv]
            · rw [if_neg hk, if_neg fun h' => hk h'.1]
          · rw [hmark, reaches_lower]
            simp [hact, or_assoc]

/-- The right-hand side of the active rows loses a multiple of a column. -/
theorem Regular.of_shiftRhs (h : e.Regular) {v : K → K} (hv : v 0 = 0) {mark mark' : Option Nat}
    (hok : e.shiftRhs j v mark = .ok (mark', e')) : ∃ rhs, e' = { e with work := { e.work with rhs := rhs } } ∧
      (∀ k, coord rhs k =
        coord e.work.rhs k - if (e.set.rowAt k).isActive then v (e.problem.a.coeff k j) else 0) ∧
      ∀ k, Reaches mark' k ↔ Reaches mark k ∨
        ∃ x ∈ e.problem.a.columnEntries j, (e.set.rowAt x.1).isActive ∧ x.1 ≤ k := by
  unfold shiftRhs at hok
  simp only [bind_eq_ok_iff, pure_eq_ok_iff, Prod.mk.injEq] at hok
  obtain ⟨c, hc, ⟨rhs, _⟩, hfold, rfl, rfl⟩ := hok
  rw [← Array.foldlM_toList, ← SparseMatrix.columnEntries_of_ok hc] at hfold
  exact ⟨rhs, rfl, h.of_shiftEntries hv (h.problem.formatted.nodup j) (h.problem.formatted.row_lt j) hfold⟩

end Engine

namespace LineSearch

variable {s s' s'' : LineSearch K} {j k : Nat}

/-- The search after the bound column `j` has begun to move. -/
structure ColumnFreed (s s' : LineSearch K) (j : Nat) : Prop where
  lt : j < s.engine.problem.ncols
  form : s' = { s with
    engine := { s.engine with
      set := s'.engine.set
      work := { s.engine.work with rhs := s'.engine.work.rhs }
      log := { s.engine.log with colsFreed := s.engine.log.colsFreed.push j }
      stats := { s.engine.stats with colsFreed := s.engine.stats.colsFreed + 1 }
      events := s.engine.events.push (.columnFreedInSearch j) }
    curvature := s'.curvature
    mark := s'.mark }
  set : ∃ bound free freePos, s'.engine.set = { s.engine.set with
    bound := bound
    free := free
    freePos := freePos
    colStatus := s.engine.set.colStatus.setIfInBounds j .free }
  regular : s'.engine.Regular
  rhs : ∀ i, coord s'.engine.work.rhs i = coord s.engine.work.rhs i -
    if (s.engine.set.rowAt i).isActive then s.engine.problem.a.coeff i j * coord s.engine.work.cold j else 0
  curvature : s'.curvature = s.curvature + coord s.engine.work.pa j * coord s.engine.work.pa j
  mark : ∀ i, Reaches s'.mark i ↔ Reaches s.mark i ∨
    ∃ x ∈ s.engine.problem.a.columnEntries j, (s.engine.set.rowAt x.1).isActive ∧ x.1 ≤ i

theorem of_freeColumn (h : s.engine.Regular) (hok : s.freeColumn j = .ok s') : ColumnFreed s s' j := by
  unfold freeColumn at hok
  simp only [bind_eq_ok_iff, pure_eq_ok_iff, fetch_eq_ok_coord_iff] at hok
  obtain ⟨p, ⟨-, rfl⟩, cold, ⟨-, rfl⟩, ⟨mark, e₁⟩, hshift, e₂, hrelease, rfl⟩ := hok
  obtain ⟨rhs, rfl, hrhs, hmark⟩ := h.of_shiftRhs (v := (· * coord s.engine.work.cold j)) (zero_mul _) hshift
  have h₁ := h.of_work { s.engine.work with rhs := rhs }
  have hr := h₁.of_releaseColumn hrelease
  have hreg := (Engine.quiet_tell e₂ (.columnFreedInSearch j)).sameState.regular (hr.regular h₁)
  obtain ⟨set, bound, free, freePos, -, hset, rfl⟩ := hr.eq
  exact ⟨hr.lt, rfl, ⟨bound, free, freePos, hset⟩, hreg, hrhs, rfl, hmark⟩

/-- The search after columns have lost their shares in a row, of which the entries are listed. -/
structure SharesLost (t delta : K) (l : List (Nat × K)) (s s' : LineSearch K) : Prop where
  form : s' = { s with
    engine := { s.engine with
      work := { s.engine.work with
        c := s'.engine.work.c
        cold := s'.engine.work.cold
        pa := s'.engine.work.pa
        rhs := s'.engine.work.rhs }
      heap := s'.engine.heap }
    curvature := s'.curvature
    mark := s'.mark }
  regular : s'.engine.Regular
  c : ∀ j, coord s'.engine.work.c j = coord s.engine.work.c j + entryValue l j * s.step * t
  cold : ∀ j, coord s'.engine.work.cold j = coord s.engine.work.cold j + entryValue l j * delta
  pa : ∀ j, coord s'.engine.work.pa j = coord s.engine.work.pa j - entryValue l j * t
  rhs : ∀ i, coord s'.engine.work.rhs i = coord s.engine.work.rhs i -
    if (s.engine.set.rowAt i).isActive then
      (l.map fun x => x.2 * if s.engine.set.colAt x.1 = .free then s.engine.problem.a.coeff i x.1 * delta else 0).sum
    else 0
  curvature : s'.curvature = s.curvature - (l.map fun x => x.2 *
    if s.engine.set.colAt x.1 = .free then t * (2 * coord s.engine.work.pa x.1 - x.2 * t) else 0).sum
  keys : ∀ d, s'.engine.heap.keyAt d = if d ∈ l.map Prod.fst ∧ s.engine.set.colAt d ≠ .free then
    rekey? s.step (coord s.engine.work.c d + s.step * coord s.engine.work.pa d)
      (coord s.engine.work.pa d - entryValue l d * t) (s.engine.set.colAt d) else s.engine.heap.keyAt d
  mark : ∀ i, Reaches s'.mark i ↔ Reaches s.mark i ∨ ∃ x ∈ l, s.engine.set.colAt x.1 = .free ∧
    ∃ y ∈ s.engine.problem.a.columnEntries x.1, (s.engine.set.rowAt y.1).isActive ∧ y.1 ≤ i

section Shares

variable {t delta : K}

theorem sharesLost_nil (h : s.engine.Regular) : SharesLost t delta [] s s :=
  ⟨rfl, h, fun j => by simp, fun j => by simp, fun j => by simp, fun i => by simp, by simp,
    fun d => by simp, fun i => by simp⟩

/-- One column loses its share. -/
theorem of_loseRow (h : s.engine.Regular) {x : Nat × K}
    (hok : loseRow t delta s x = .ok s') : SharesLost t delta [x] s s' := by
  obtain ⟨j, a⟩ := x
  unfold loseRow at hok
  simp only [bind_eq_ok_iff, fetch_eq_ok_coord_iff, store_eq_ok_iff, adjust_eq_ok_iff] at hok
  obtain ⟨_, ⟨hc, rfl⟩, _, ⟨hp, rfl⟩, _, ⟨-, rfl⟩, _, ⟨hcold, rfl⟩, _, ⟨-, rfl⟩, st, hst, hok⟩ := hok
  obtain rfl := ActiveSet.fetch_colStatus_eq hst
  have hentry : ∀ i, entryValue [(j, a)] i = if i = j then a else 0 := fun i => by
    rw [entryValue_cons, entryValue_nil]
  have hc' : ∀ i, coord (s.engine.work.c.setIfInBounds j (coord s.engine.work.c j + a * s.step * t)) i =
      coord s.engine.work.c i + entryValue [(j, a)] i * s.step * t := fun i => by
    rw [coord_setIfInBounds_add hc, hentry, ite_mul, ite_mul, zero_mul, zero_mul]
  have hcold' : ∀ i, coord (s.engine.work.cold.setIfInBounds j (coord s.engine.work.cold j + a * delta)) i =
      coord s.engine.work.cold i + entryValue [(j, a)] i * delta := fun i => by
    rw [coord_setIfInBounds_add hcold, hentry, ite_mul, zero_mul]
  have hp' : ∀ i, coord (s.engine.work.pa.setIfInBounds j (coord s.engine.work.pa j - a * t)) i =
      coord s.engine.work.pa i - entryValue [(j, a)] i * t := fun i => by
    rw [coord_setIfInBounds_sub hp, hentry, ite_mul, zero_mul]
  cases hcol : s.engine.set.colAt j
  case free =>
    simp only [hcol, bind_eq_ok_iff, pure_eq_ok_iff] at hok
    obtain ⟨⟨mark, e₁⟩, hshift, rfl⟩ := hok
    obtain ⟨rhs, rfl, hrhs, hmark⟩ := (h.of_work _).of_shiftRhs (by rw [zero_mul, zero_mul]) hshift
    refine ⟨rfl, h.of_work _, hc', hcold', hp', fun i => ?_, ?_, fun d => ?_, fun i => ?_⟩
    · rw [hrhs]
      simp only [List.map_cons, List.map_nil, List.sum_cons, List.sum_nil, hcol, if_true, add_zero]
      congr 2
      ring
    · simp only [List.map_cons, List.map_nil, List.sum_cons, List.sum_nil, hcol, if_true, add_zero]
      ring
    · rw [if_neg]
      simp only [List.map_cons, List.map_nil, List.mem_singleton, not_and, not_not]
      rintro rfl
      exact hcol
    · rw [hmark]
      simp [hcol]
  all_goals
    simp only [hcol, bind_eq_ok_iff, pure_eq_ok_iff] at hok
    obtain ⟨e₁, hrekey, rfl⟩ := hok
    obtain ⟨heap, rfl, hvalid, hkeys⟩ := (h.of_work _).of_rekeyColumn hrekey
    refine ⟨rfl, (h.of_work _).of_heap hvalid, hc', hcold', hp', fun i => ?_, ?_, fun d => ?_, fun i => ?_⟩
    · simp [hcol]
    · simp [hcol]
    · rw [hkeys]
      simp only [List.map_cons, List.map_nil, List.mem_singleton]
      by_cases hd : d = j
      · subst hd
        rw [if_pos rfl, if_pos ⟨rfl, by rw [hcol]; decide⟩, hcol, hentry, if_pos rfl]
      · rw [if_neg hd, if_neg fun hall => hd hall.1]
    · simp [hcol]

/-- One column after the other loses its share. -/
theorem SharesLost.cons {x : Nat × K} {l : List (Nat × K)} (hx : x.1 ∉ l.map Prod.fst)
    (h₁ : SharesLost t delta [x] s s') (h₂ : SharesLost t delta l s' s'') : SharesLost t delta (x :: l) s s'' := by
  have hset : s'.engine.set = s.engine.set := by rw [h₁.form]
  have hprob : s'.engine.problem = s.engine.problem := by rw [h₁.form]
  have hstep : s'.step = s.step := by rw [h₁.form]
  have hentry : ∀ i, entryValue (x :: l) i = entryValue [x] i + entryValue l i := by
    intro i
    rw [entryValue_cons, entryValue_cons, entryValue_nil]
    split_ifs with hi
    · rw [hi, entryValue_of_not_mem hx, add_zero]
    · rw [zero_add]
  refine ⟨?_, h₂.regular, fun j => ?_, fun j => ?_, fun j => ?_, fun i => ?_, ?_, fun d => ?_, fun i => ?_⟩
  · rw [h₂.form, h₁.form]
  · rw [h₂.c, h₁.c, hentry, hstep]
    ring
  · rw [h₂.cold, h₁.cold, hentry]
    ring
  · rw [h₂.pa, h₁.pa, hentry]
    ring
  · rw [h₂.rhs, h₁.rhs, hset, hprob]
    simp only [List.map_cons, List.map_nil, List.sum_cons, List.sum_nil, add_zero]
    split_ifs <;> ring
  · have hpa : ∀ y ∈ l, coord s'.engine.work.pa y.1 = coord s.engine.work.pa y.1 := by
      intro y hy
      have hne : y.1 ≠ x.1 := fun heq => hx (heq ▸ List.mem_map_of_mem hy)
      rw [h₁.pa, entryValue_cons, if_neg hne, entryValue_nil]
      ring
    have hmap : (l.map fun y => y.2 *
        if s.engine.set.colAt y.1 = .free then t * (2 * coord s'.engine.work.pa y.1 - y.2 * t) else 0) =
        l.map fun y => y.2 *
        if s.engine.set.colAt y.1 = .free then t * (2 * coord s.engine.work.pa y.1 - y.2 * t) else 0 :=
      List.map_congr_left fun y hy => by rw [hpa y hy]
    rw [h₂.curvature, h₁.curvature, hset, hmap]
    simp only [List.map_cons, List.map_nil, List.sum_cons, List.sum_nil, add_zero]
    ring
  · rw [h₂.keys, h₁.keys, hset, hstep]
    by_cases hd : d = x.1
    · subst hd
      rw [if_neg fun hall => hx hall.1, hentry, entryValue_of_not_mem hx, add_zero]
      simp
    · have hsingle : entryValue [x] d = 0 := by rw [entryValue_cons, if_neg hd, entryValue_nil]
      have hc : coord s'.engine.work.c d = coord s.engine.work.c d := by rw [h₁.c, hsingle]; ring
      have hpa : coord s'.engine.work.pa d = coord s.engine.work.pa d := by rw [h₁.pa, hsingle]; ring
      have hmem : d ∈ (x :: l).map Prod.fst ↔ d ∈ l.map Prod.fst := by
        rw [List.map_cons, List.mem_cons, or_iff_right hd]
      have hsingle' : d ∉ [x].map Prod.fst := by simpa using hd
      rw [hc, hpa, hentry, hsingle, zero_add]
      simp only [hmem, hsingle', false_and, if_false]
  · rw [h₂.mark, h₁.mark, hset, hprob]
    simp [or_assoc]

theorem of_loseRow_foldlM {l : List (Nat × K)} (hok : l.foldlM (loseRow t delta) s = .ok s')
    (h : s.engine.Regular) (hl : (l.map Prod.fst).Nodup) : SharesLost t delta l s s' := by
  induction l generalizing s with
  | nil =>
      rw [List.foldlM_nil, pure_eq_ok_iff] at hok
      rw [← hok]
      exact sharesLost_nil h
  | cons x l ih =>
      rw [List.map_cons, List.nodup_cons] at hl
      rw [List.foldlM_cons, bind_eq_ok_iff] at hok
      obtain ⟨s₁, hstep, hok⟩ := hok
      have h₁ := of_loseRow h hstep
      exact h₁.cons hl.1 (ih hok h₁.regular hl.2)

end Shares

variable {delta : K}

/-- The free columns of a list of entries take their parts out of a slope. -/
theorem of_slope_foldlM {l : List (Nat × K)} {g₀ g : K} (hok : l.foldlM (fun g (j, a) => do
      if ← s.engine.set.isFree j then
        return g - a * ((← fetch s.engine.work.c j) + s.step * (← fetch s.engine.work.pa j) -
          (← fetch s.engine.work.cold j))
      else return g) g₀ = .ok g) : g = g₀ - (l.map fun x => x.2 * if s.engine.set.colAt x.1 = .free then
        coord s.engine.work.c x.1 + s.step * coord s.engine.work.pa x.1 - coord s.engine.work.cold x.1 else 0).sum := by
  induction l generalizing g₀ with
  | nil =>
      rw [List.foldlM_nil, pure_eq_ok_iff] at hok
      simp [hok]
  | cons x l ih =>
      rw [List.foldlM_cons, bind_eq_ok_iff] at hok
      obtain ⟨g₁, hstep, hok⟩ := hok
      rw [ih hok, List.map_cons, List.sum_cons]
      simp only [bind_eq_ok_iff] at hstep
      obtain ⟨free, hfree, hstep⟩ := hstep
      obtain ⟨rfl, -⟩ := ActiveSet.isFree_ok hfree
      by_cases hcol : s.engine.set.colAt x.1 = .free
      · simp only [hcol, beq_self_eq_true, if_true, bind_eq_ok_iff, pure_eq_ok_iff, fetch_eq_ok_coord_iff] at hstep
        obtain ⟨_, ⟨-, rfl⟩, _, ⟨-, rfl⟩, _, ⟨-, rfl⟩, rfl⟩ := hstep
        rw [if_pos hcol]
        ring
      · rw [if_neg (by simpa using hcol), pure_eq_ok_iff] at hstep
        rw [if_neg hcol, hstep]
        ring

/-- The slope that row `k` contributes. -/
theorem of_rowSlope (h : s.engine.Regular) {g : K}
    (hok : s.rowSlope k delta = .ok g) : g = coord s.engine.work.rhs k - s.engine.sigma * delta -
      ∑ j ∈ Finset.range s.engine.problem.ncols, s.engine.problem.a.coeff k j *
        if s.engine.set.colAt j = .free then coord s.engine.work.c j + s.step * coord s.engine.work.pa j -
          coord s.engine.work.cold j else 0 := by
  unfold rowSlope at hok
  simp only [bind_eq_ok_iff, fetch_eq_ok_coord_iff] at hok
  obtain ⟨column, hcolumn, r, ⟨-, rfl⟩, hok⟩ := hok
  rw [← Array.foldlM_toList, ← SparseMatrix.columnEntries_of_ok hcolumn] at hok
  have hsum := h.problem.transpose.sum_row h.problem.formatted k fun j => if s.engine.set.colAt j = .free then
    coord s.engine.work.c j + s.step * coord s.engine.work.pa j - coord s.engine.work.cold j else 0
  rw [of_slope_foldlM hok, hsum]
  rfl

/-- The search after row `k` has been dropped. The multiplier increment of the row at the step is `delta`. -/
structure RowDropped (s s' : LineSearch K) (k : Nat) (delta : K) : Prop where
  lt : k < s.engine.problem.nrows
  active : (s.engine.set.rowAt k).isActive = true
  delta_eq : delta = coord s.engine.dlambda k + s.step * coord s.engine.work.t k
  form : s' = { s with
    engine := { s.engine with
      set := s'.engine.set
      lambda := s'.engine.lambda
      dlambda := s'.engine.dlambda
      work := { s.engine.work with
        c := s'.engine.work.c
        cold := s'.engine.work.cold
        pa := s'.engine.work.pa
        rhs := s'.engine.work.rhs }
      heap := s'.engine.heap
      stats := { s.engine.stats with rowsDropped := s.engine.stats.rowsDropped + 1 }
      events := s.engine.events.push (.rowDropped k s.step) }
    slope := s'.slope
    curvature := s'.curvature
    mark := s'.mark }
  set : ∃ rows, s'.engine.set = { s.engine.set with
    rows := rows
    rowStatus := s.engine.set.rowStatus.setIfInBounds k .dropped
    dropped := s.engine.set.dropped.push k }
  regular : s'.engine.Regular
  lambda : ∀ i, coord s'.engine.lambda i = if i = k then 0 else coord s.engine.lambda i
  dlambda : ∀ i, coord s'.engine.dlambda i = if i = k then 0 else coord s.engine.dlambda i
  c : ∀ j, coord s'.engine.work.c j =
    coord s.engine.work.c j + s.engine.problem.a.coeff k j * s.step * coord s.engine.work.t k
  cold : ∀ j, coord s'.engine.work.cold j = coord s.engine.work.cold j + s.engine.problem.a.coeff k j * delta
  pa : ∀ j, coord s'.engine.work.pa j =
    coord s.engine.work.pa j - s.engine.problem.a.coeff k j * coord s.engine.work.t k
  rhs : ∀ i, coord s'.engine.work.rhs i = coord s.engine.work.rhs i - (if i = k then s.engine.boundAt k else 0) -
    if (s'.engine.set.rowAt i).isActive then
      ∑ j ∈ Finset.range s.engine.problem.ncols, s.engine.problem.a.coeff k j *
        if s.engine.set.colAt j = .free then s.engine.problem.a.coeff i j * delta else 0
    else 0
  slope : s'.slope = s.slope - (coord s.engine.work.rhs k - s.engine.sigma * delta -
    ∑ j ∈ Finset.range s.engine.problem.ncols, s.engine.problem.a.coeff k j *
      if s.engine.set.colAt j = .free then coord s.engine.work.c j + s.step * coord s.engine.work.pa j -
        coord s.engine.work.cold j else 0) * coord s.engine.work.t k
  curvature : s'.curvature = s.curvature - s.engine.sigma * coord s.engine.work.t k * coord s.engine.work.t k -
    ∑ j ∈ Finset.range s.engine.problem.ncols, s.engine.problem.a.coeff k j *
      if s.engine.set.colAt j = .free then coord s.engine.work.t k * (2 * coord s.engine.work.pa j -
        s.engine.problem.a.coeff k j * coord s.engine.work.t k) else 0
  keys : ∀ d, s'.engine.heap.keyAt d =
    if d ∈ (s.engine.problem.aT.columnEntries k).map Prod.fst ∧ s.engine.set.colAt d ≠ .free then
      rekey? s.step (coord s.engine.work.c d + s.step * coord s.engine.work.pa d)
        (coord s.engine.work.pa d - s.engine.problem.a.coeff k d * coord s.engine.work.t k) (s.engine.set.colAt d)
    else s.engine.heap.keyAt d
  mark : ∀ i, Reaches s'.mark i ↔ Reaches s.mark i ∨ k ≤ i ∨
    ∃ x ∈ s.engine.problem.aT.columnEntries k, s.engine.set.colAt x.1 = .free ∧
      ∃ y ∈ s.engine.problem.a.columnEntries x.1, (s'.engine.set.rowAt y.1).isActive ∧ y.1 ≤ i

theorem of_dropRow (h : s.engine.Regular) (hok : s.dropRow k = .ok s') : ∃ delta, RowDropped s s' k delta := by
  unfold dropRow at hok
  simp only [bind_eq_ok_iff, fetch_eq_ok_coord_iff, store_eq_ok_iff, adjust_eq_ok_iff, pure_eq_ok_iff] at hok
  obtain ⟨_, ⟨-, rfl⟩, _, ⟨-, rfl⟩, g, hg, bound, hbound, set, hset, _, ⟨hl, rfl⟩, _, ⟨hd, rfl⟩, _, ⟨hr, rfl⟩,
    column, hcolumn, s₂, hfold, rfl⟩ := hok
  obtain ⟨hk, hact, -, rows, hform⟩ := h.set.of_deactivate hset
  rw [h.rowBound_ok hk, Except.ok.injEq] at hbound
  subst hbound
  rw [← Array.foldlM_toList, ← SparseMatrix.columnEntries_of_ok hcolumn] at hfold
  have hT := h.problem.transpose
  have hnodup := (hT.formatted h.problem.formatted).nodup k
  -- the row meets the columns in its entries
  have hlost := of_loseRow_foldlM hfold (h.of_deactivate hset 0 0 { s.engine.work with
    rhs := s.engine.work.rhs.setIfInBounds k (coord s.engine.work.rhs k - s.engine.boundAt k) }) hnodup
  have hentry : ∀ j, entryValue (s.engine.problem.aT.columnEntries k) j = s.engine.problem.a.coeff k j :=
    fun j => hT.coeff_eq h.problem.formatted k j
  have hsum := hT.sum_row h.problem.formatted k
  have hcol : ∀ j, set.colAt j = s.engine.set.colAt j := fun j => by
    rw [hform]
    rfl
  have hset₂ : s₂.engine.set = set := by rw [hlost.form]
  have hlambda₂ : s₂.engine.lambda = s.engine.lambda.setIfInBounds k 0 := by rw [hlost.form]
  have hdlambda₂ : s₂.engine.dlambda = s.engine.dlambda.setIfInBounds k 0 := by rw [hlost.form]
  have hslope₂ : s₂.slope = s.slope - g * coord s.engine.work.t k := by rw [hlost.form]
  have hquiet : s₂.engine.Quiet ({ s₂.engine with
    stats := { s₂.engine.stats with rowsDropped := s₂.engine.stats.rowsDropped + 1 } }.tell (.rowDropped k s₂.step)) :=
    ⟨_, _, _, _, _, rfl⟩
  exact ⟨coord s.engine.dlambda k + s.step * coord s.engine.work.t k, {
    lt := hk
    active := hact
    delta_eq := rfl
    form := by
      rw [hlost.form]
      rfl
    set := ⟨rows, hset₂.trans hform⟩
    regular := hquiet.sameState.regular hlost.regular
    lambda := fun i => by rw [Engine.tell, hlambda₂, (coord_set_step hl).2]
    dlambda := fun i => by rw [Engine.tell, hdlambda₂, (coord_set_step hd).2]
    c := fun j => by rw [Engine.tell, hlost.c, hentry]
    cold := fun j => by rw [Engine.tell, hlost.cold, hentry]
    pa := fun j => by rw [Engine.tell, hlost.pa, hentry]
    rhs := fun i => by
      rw [Engine.tell, hlost.rhs, coord_setIfInBounds_sub hr, hset₂, hsum fun j => if set.colAt j = .free then
        s.engine.problem.a.coeff i j * (coord s.engine.dlambda k + s.step * coord s.engine.work.t k) else 0]
      simp only [hcol]
      rfl
    slope := by rw [hslope₂, of_rowSlope h hg]
    curvature := by
      rw [hlost.curvature]
      congr 1
      refine Eq.trans ?_ (hsum fun j => if s.engine.set.colAt j = .free then coord s.engine.work.t k *
        (2 * coord s.engine.work.pa j - s.engine.problem.a.coeff k j * coord s.engine.work.t k) else 0)
      refine congrArg List.sum (List.map_congr_left fun x hx => ?_)
      have hvalue : s.engine.problem.a.coeff k x.1 = x.2 := by rw [← hentry, entryValue_of_mem hnodup hx]
      rw [hvalue, hcol]
    keys := fun d => by
      rw [Engine.tell, hlost.keys, hentry]
      simp only [hcol]
    mark := fun i => by
      rw [hlost.mark, hset₂, reaches_lower, or_assoc]
      simp only [hcol]
      exact Iff.rfl }⟩

/-! What each event leaves as it was. -/

section Frame

theorem ColumnFreed.problem (hf : ColumnFreed s s' j) : s'.engine.problem = s.engine.problem := by
  rw [hf.form]

theorem ColumnFreed.sigma (hf : ColumnFreed s s' j) : s'.engine.sigma = s.engine.sigma := by
  rw [hf.form]

theorem ColumnFreed.factor (hf : ColumnFreed s s' j) : s'.engine.factor = s.engine.factor := by
  rw [hf.form]

theorem ColumnFreed.lambda (hf : ColumnFreed s s' j) : s'.engine.lambda = s.engine.lambda := by
  rw [hf.form]

theorem ColumnFreed.dlambda (hf : ColumnFreed s s' j) : s'.engine.dlambda = s.engine.dlambda := by
  rw [hf.form]

theorem ColumnFreed.log (hf : ColumnFreed s s' j) :
    s'.engine.log = { s.engine.log with colsFreed := s.engine.log.colsFreed.push j } := by
  rw [hf.form]

theorem ColumnFreed.stats (hf : ColumnFreed s s' j) :
    s'.engine.stats = { s.engine.stats with colsFreed := s.engine.stats.colsFreed + 1 } := by
  rw [hf.form]

theorem ColumnFreed.events (hf : ColumnFreed s s' j) :
    s'.engine.events = s.engine.events.push (.columnFreedInSearch j) := by
  rw [hf.form]

theorem ColumnFreed.work (hf : ColumnFreed s s' j) :
    s'.engine.work = { s.engine.work with rhs := s'.engine.work.rhs } := by
  rw [hf.form]

theorem ColumnFreed.t (hf : ColumnFreed s s' j) : s'.engine.work.t = s.engine.work.t := by
  rw [hf.work]

theorem ColumnFreed.c (hf : ColumnFreed s s' j) : s'.engine.work.c = s.engine.work.c := by
  rw [hf.work]

theorem ColumnFreed.cold (hf : ColumnFreed s s' j) : s'.engine.work.cold = s.engine.work.cold := by
  rw [hf.work]

theorem ColumnFreed.pa (hf : ColumnFreed s s' j) : s'.engine.work.pa = s.engine.work.pa := by
  rw [hf.work]

theorem ColumnFreed.reference (hf : ColumnFreed s s' j) : s'.engine.work.reference = s.engine.work.reference := by
  rw [hf.work]

theorem ColumnFreed.fwd (hf : ColumnFreed s s' j) : s'.engine.work.fwd = s.engine.work.fwd := by
  rw [hf.work]

theorem ColumnFreed.heap (hf : ColumnFreed s s' j) : s'.engine.heap = s.engine.heap := by
  rw [hf.form]

theorem ColumnFreed.step (hf : ColumnFreed s s' j) : s'.step = s.step := by
  rw [hf.form]

theorem ColumnFreed.slope (hf : ColumnFreed s s' j) : s'.slope = s.slope := by
  rw [hf.form]

theorem ColumnFreed.changed (hf : ColumnFreed s s' j) : s'.changed = s.changed := by
  rw [hf.form]

theorem RowDropped.problem (hd : RowDropped s s' k delta) : s'.engine.problem = s.engine.problem := by
  rw [hd.form]

theorem RowDropped.sigma (hd : RowDropped s s' k delta) : s'.engine.sigma = s.engine.sigma := by
  rw [hd.form]

theorem RowDropped.factor (hd : RowDropped s s' k delta) : s'.engine.factor = s.engine.factor := by
  rw [hd.form]

theorem RowDropped.work (hd : RowDropped s s' k delta) : s'.engine.work = { s.engine.work with
    c := s'.engine.work.c
    cold := s'.engine.work.cold
    pa := s'.engine.work.pa
    rhs := s'.engine.work.rhs } := by
  rw [hd.form]

theorem RowDropped.t (hd : RowDropped s s' k delta) : s'.engine.work.t = s.engine.work.t := by
  rw [hd.work]

theorem RowDropped.reference (hd : RowDropped s s' k delta) :
    s'.engine.work.reference = s.engine.work.reference := by
  rw [hd.work]

theorem RowDropped.fwd (hd : RowDropped s s' k delta) : s'.engine.work.fwd = s.engine.work.fwd := by
  rw [hd.work]

theorem RowDropped.log (hd : RowDropped s s' k delta) : s'.engine.log = s.engine.log := by
  rw [hd.form]

theorem RowDropped.stats (hd : RowDropped s s' k delta) :
    s'.engine.stats = { s.engine.stats with rowsDropped := s.engine.stats.rowsDropped + 1 } := by
  rw [hd.form]

theorem RowDropped.events (hd : RowDropped s s' k delta) :
    s'.engine.events = s.engine.events.push (.rowDropped k s.step) := by
  rw [hd.form]

theorem RowDropped.step (hd : RowDropped s s' k delta) : s'.step = s.step := by
  rw [hd.form]

theorem RowDropped.changed (hd : RowDropped s s' k delta) : s'.changed = s.changed := by
  rw [hd.form]

end Frame

theorem ColumnFreed.rowAt (hf : ColumnFreed s s' j) (i : Nat) : s'.engine.set.rowAt i = s.engine.set.rowAt i := by
  obtain ⟨bound, free, freePos, hset⟩ := hf.set
  rw [hset]
  rfl

theorem ColumnFreed.colAt (hf : ColumnFreed s s' j) (h : s.engine.Regular) (k : Nat) :
    s'.engine.set.colAt k = if k = j then .free else s.engine.set.colAt k := by
  obtain ⟨bound, free, freePos, hset⟩ := hf.set
  rw [hset]
  exact ActiveSet.colAt_set rfl (by rw [h.set.size_colStatus]; exact hf.lt) k

theorem RowDropped.rowAt (hd : RowDropped s s' k delta) (h : s.engine.Regular) (i : Nat) :
    s'.engine.set.rowAt i = if i = k then .dropped else s.engine.set.rowAt i := by
  obtain ⟨rows, hset⟩ := hd.set
  rw [hset]
  exact ActiveSet.rowAt_set rfl (by rw [h.set.size_rowStatus]; exact hd.lt) i

theorem RowDropped.colAt (hd : RowDropped s s' k delta) (j : Nat) :
    s'.engine.set.colAt j = s.engine.set.colAt j := by
  obtain ⟨rows, hset⟩ := hd.set
  rw [hset]
  rfl

/-- The break values of rows stay as they are. -/
theorem RowDropped.keyAt_row (hd : RowDropped s s' k delta) (h : s.engine.Regular) (i : Nat) :
    s'.engine.heap.keyAt (s.engine.problem.ncols + i) = s.engine.heap.keyAt (s.engine.problem.ncols + i) := by
  rw [hd.keys, if_neg]
  rintro ⟨hmem, -⟩
  obtain ⟨x, hx, heq⟩ := List.mem_map.1 hmem
  have hlt : x.1 < s.engine.problem.ncols := h.problem.transpose.col_lt k x hx
  omega

/-- A new break value is not before the step. -/
theorem RowDropped.ahead (hd : RowDropped s s' k delta) {d : Nat} {v : K} (hv : s'.engine.heap.keyAt d = some v) :
    s.engine.heap.keyAt d = some v ∨ s.step ≤ v := by
  rw [hd.keys] at hv
  split_ifs at hv
  · exact .inr (le_of_rekey? hv)
  · exact .inl hv

end LineSearch

end PolyProjection
