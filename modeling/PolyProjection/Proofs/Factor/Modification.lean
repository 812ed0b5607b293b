import Mathlib
import PolyProjection.Proofs.Factor.Scratch

/-! Operations on a factor at rest leave it at rest. Scalars may round and the columns that enter and leave may be any
ones of the matrix, so nothing is said of the values; but what an operation puts into the work vectors stays within the
active rows of the pattern and is cleared on the way, and pivots are lifted. -/

namespace PolyProjection

set_option linter.unusedSectionVars false

variable {K : Type} [Scalar K]

variable {s : Fill} {a aT : SparseMatrix K} {act act' : ℕ → Bool} {sigma sigma' : K} {floor : K → K} {j k : ℕ}

namespace LdlFactor

section Elimination

variable {done T : ℕ → Prop} {d : ℕ → K} {r : RowState K}

/-- Row `k` with the columns before `j` eliminated: what is left of it in `work` lies in the active columns of its
pattern and in the rows `T`, and what is kept apart in `work2` lies in the rows `T`. -/
def Reduced (s : Fill) (act : ℕ → Bool) (sigma : K) (done T : ℕ → Prop) (d : ℕ → K) (k j : ℕ) (r : RowState K) : Prop :=
  ∃ l w w2, r.factor = s.factor act l d sigma w w2 ∧ s.Regularized act sigma done l d ∧
    Supported w (fun i => j ≤ i ∧ s.has k i = true ∧ act i = true ∨ T i) ∧ Supported w2 T

/-- A column without an entry in the row is passed over. -/
theorem Reduced.pass (h : Reduced s act sigma done T d k j r) (hnot : ¬ (s.has k j = true ∧ act j = true)) :
    Reduced s act sigma done T d k (j + 1) r := by
  obtain ⟨l, w, w2, hf, hreg, hw, hw2⟩ := h
  refine ⟨l, w, w2, hf, hreg, hw.mono fun i hi => hi.imp_left fun ⟨hji, hi⟩ => ⟨?_, hi⟩, hw2⟩
  rcases Nat.eq_or_lt_of_le hji with rfl | hlt
  · exact absurd hi hnot
  · exact hlt

/-- The share of column `j` lies in the columns of the row's pattern. -/
theorem supported_eliminated {w v : ℕ → K} (hhas : s.has k j = true)
    (hw : Supported w fun i => j ≤ i ∧ s.has k i = true ∧ act i = true ∨ T i) :
    Supported (fun i => if i = j then 0 else if s.has i j = true ∧ act i = true ∧ i < k then v i else w i)
      fun i => j + 1 ≤ i ∧ s.has k i = true ∧ act i = true ∨ T i := by
  intro i hi
  rw [not_or] at hi
  dsimp only
  split_ifs with hij hcol
  · rfl
  · exact absurd ⟨(s.lt_of_has hcol.1).1, s.closed hcol.1 hhas hcol.2.2, hcol.2.1⟩ hi.1
  · refine hw i (not_or.2 ⟨fun h => hi.1 ⟨?_, h.2⟩, hi.2⟩)
    omega

variable (hhas : s.has k j = true) (hj : act j = true) (hk : act k = true) (hdone : done j)

include hhas hj hk hdone

theorem Reduced.eliminate_yields (h : Reduced s act sigma done T d k j r) :
    Yields (Blocked sigma) (Reduced s act sigma done T d k (j + 1)) (eliminate k r j) := by
  obtain ⟨f, p, flops⟩ := r
  obtain ⟨l, w, w2, rfl, hreg, hw, hw2⟩ := h
  have hlt := s.lt_of_has hhas
  obtain ⟨flops', heq⟩ := eliminate_eq sigma l d w w2 hhas hj hk p flops
  rw [heq]
  have hpivot := hreg.le_pivot j (hlt.1.trans hlt.2) hdone hj
  refine (Scalar.quotient_yields _ _ fun hdiv => ⟨_, hpivot, hdiv⟩).bind fun x _ => ?_
  exact ⟨_, _, _, rfl, hreg.set_entry hj x, supported_eliminated hhas hw, hw2⟩

theorem Reduced.eliminateNew_yields (hT : ∀ i, s.Live act k i → T i) (h : Reduced s act sigma done T d k j r) :
    Yields (Blocked sigma) (Reduced s act sigma done T d k (j + 1)) (eliminateNew k r j) := by
  obtain ⟨f, p, flops⟩ := r
  obtain ⟨l, w, w2, rfl, hreg, hw, hw2⟩ := h
  have hlt := s.lt_of_has hhas
  obtain ⟨flops', heq⟩ := eliminateNew_eq sigma l d w w2 hhas hj hk p flops
  rw [heq]
  have hpivot := hreg.le_pivot j (hlt.1.trans hlt.2) hdone hj
  refine (Scalar.quotient_yields _ _ fun hdiv => ⟨_, hpivot, hdiv⟩).bind fun x _ => ?_
  refine ⟨_, _, _, rfl, hreg.set_entry hj x, supported_eliminated hhas hw, fun i hi => ?_⟩
  -- rows below the new one that the column reaches are in the new column
  have hnot : ¬ (s.has i j = true ∧ act i = true ∧ k < i) := fun h =>
    hi (hT i ⟨s.closed hhas h.1 h.2.2, h.2.1⟩)
  exact (if_neg hnot).trans (hw2 i hi)

omit hhas hj hk hdone

variable (act sigma done T d) in
/-- The elimination over the columns in the pattern of row `k` leaves of it what lies in the rows `T`. -/
theorem foldlM_reduced {step : RowState K → ℕ → Checked (RowState K)} (hk : k < s.size)
    (hstep : ∀ j r, s.has k j = true → act j = true → Reduced s act sigma done T d k j r →
      Yields (Blocked sigma) (Reduced s act sigma done T d k (j + 1)) (step r j))
    (hskip : ∀ j r, fetch r.factor.active j = .ok false → step r j = .ok r)
    (h : Reduced s act sigma done T d k 0 r) :
    Yields (Blocked sigma) (Reduced s act sigma done T d k k) ((s.row k).foldlM step r) := by
  rw [Fill.row, foldlM_filter]
  refine Yields.foldlM_range (Reduced s act sigma done T d k) h fun j hj r hr => ?_
  by_cases hhas : s.has k j = true
  · rw [if_pos hhas]
    cases hact : act j with
    | true => exact hstep j r hhas hact hr
    | false =>
        obtain ⟨l, w, w2, hf, -⟩ := id hr
        rw [hskip j r (by rw [hf, Fill.active_factor, fetch_table (hj.trans hk), hact])]
        exact hr.pass fun h => by simp [hact] at h
  · rw [if_neg hhas]
    exact hr.pass fun h => hhas h.1

/-- After the last column only the rows `T` are left. -/
theorem Reduced.support (h : Reduced s act sigma done T d k k r) :
    ∃ l w w2, r.factor = s.factor act l d sigma w w2 ∧ s.Regularized act sigma done l d ∧ Supported w T ∧
      Supported w2 T := by
  obtain ⟨l, w, w2, hf, hreg, hw, hw2⟩ := h
  refine ⟨l, w, w2, hf, hreg, hw.mono fun i hi => hi.resolve_left fun h => ?_, hw2⟩
  exact absurd (s.lt_of_has h.2.1).1 (by omega)

end Elimination

section Operations

variable {free : Array Bool}

/-- One row of the factorization, with the rows before it done. -/
theorem factorizeRow_yields (ha : a.Formatted) (hT : SparseMatrix.IsTranspose a aT) (hs : s.Covers a)
    (hfloor : ∀ x, sigma ≤ floor x) (hfree : a.ncols ≤ free.size) (hk : k < s.size) {l : ℕ → ℕ → K} {d : ℕ → K}
    (h : s.Regularized act sigma (· < k) l d) (flops : FlopCount) :
    Yields (Blocked sigma)
      (fun r => ∃ l d, r.1 = s.factor act l d sigma (fun _ => 0) (fun _ => 0) ∧
        s.Regularized act sigma (· < k + 1) l d)
      (factorizeRow floor a aT free (s.factor act l d sigma (fun _ => 0) fun _ => 0, flops) k) := by
  rw [factorizeRow]
  simp only [Fill.active_factor, fetch_table hk, ok_bind]
  cases hact : act k with
  | false =>
      refine ⟨l, d, rfl, ⟨fun i hi hik hi' => h.le_pivot i hi ?_ hi', h.pivot_eq_one, h.entry_eq_zero⟩⟩
      have hne : i ≠ k := fun hik => by rw [hik, hact] at hi'; cases hi'
      omega
  | true =>
      simp only [Bool.not_true, Bool.false_eq_true, if_false, Fill.work_factor]
      refine (gatherRow_yields ha hT hs hfree hk).bind ?_
      rintro ⟨_, aat⟩ ⟨w, rfl, hw⟩
      simp only [fetch_table hk, ok_bind, store_table _ hk, Fill.rowPattern_factor]
      refine (foldlM_reduced act sigma (· < k) (fun _ => False) d hk
        (fun j r hhas hj hr => hr.eliminate_yields hhas hj hact (s.lt_of_has hhas).1)
        (fun j r => eliminate_of_inactive)
        ⟨l, Function.update w k 0, fun _ => 0, rfl, h, ?_, .zero⟩).bind fun r hr => ?_
      · refine (hw.clear k).mono fun i hi => Or.inl ⟨Nat.zero_le i, ?_, hi.1.1⟩
        exact hi.1.2.resolve_left hi.2
      · obtain ⟨l', w', w2', hf, hreg, hw', hw2'⟩ := hr.support
        rw [hf, hw'.eq_zero fun _ => id, hw2'.eq_zero fun _ => id]
        simp only [Fill.diag_factor, store_table _ hk, ok_bind]
        exact ⟨l', _, rfl, hreg.set_pivot hact (hfloor _) fun i hi hne => by omega⟩

theorem factorizeWith_yields (ha : a.Formatted) (hT : SparseMatrix.IsTranspose a aT) (hs : s.Covers a)
    (hfloor : ∀ x, sigma ≤ floor x) (hfree : free.size = a.ncols) {active : Array Bool}
    (hactive : active.size = a.nrows) {f : LdlFactor K} (h : s.AtRest act' sigma' f) :
    Yields (Blocked sigma) (fun r => s.AtRest (fun i => active.getD i false) sigma r.1)
      (f.factorizeWith floor a aT free active sigma) := by
  obtain ⟨l, d, rfl, h⟩ := h
  set act := fun i => active.getD i false with hact
  have htable : active = table s.size act := by rw [hs.size_eq, ← hactive, hact, table_getD]
  obtain ⟨flops, hsorted⟩ : ∃ flops, ({ s.factor act' l d sigma' (fun _ => 0) (fun _ => 0) with
      sigma := sigma, active := table s.size act } : LdlFactor K).resymbol = .ok (_, flops) :=
    @resymbol_ok K _ s act' act sigma l d (fun _ => 0) fun _ => 0
  rw [factorizeWith, require_of_true (by simp [hactive, hs.size_eq]), ok_bind, require_of_true (by simp [hfree]),
    ok_bind, htable, hsorted, ok_bind]
  dsimp only
  rw [clear_factor, Fill.size_factor]
  refine (Yields.foldlM_range (fun k r => ∃ l d, r.1 = s.factor act l d sigma (fun _ => 0) (fun _ => 0) ∧
    s.Regularized act sigma (· < k) l d) ⟨_, _, rfl, fun i _ hi => absurd hi (Nat.not_lt_zero i),
      fun _ _ _ => rfl, fun _ _ _ _ _ => rfl⟩ ?_).mono id ?_
  · rintro k hk ⟨f, flops⟩ ⟨l, d, rfl, h⟩
    exact factorizeRow_yields ha hT hs hfloor hfree.ge hk h flops
  · rintro r ⟨l, d, hf, h⟩
    exact ⟨l, d, hf, ⟨fun i hi _ => h.le_pivot i hi hi, h.pivot_eq_one, h.entry_eq_zero⟩⟩

theorem deleteRowWith_yields (hfloor : ∀ x, sigma ≤ floor x) (hk : k < s.size) (hact : act k = true) {f : LdlFactor K}
    (h : s.AtRest act sigma f) :
    Yields (Blocked sigma) (fun r => s.AtRest (Function.update act k false) sigma r.1) (f.deleteRowWith floor k) := by
  obtain ⟨l, d, rfl, h⟩ := h
  rw [deleteRowWith]
  simp only [Fill.active_factor, fetch_table hk, ok_bind, require_of_true hact, Fill.diag_factor]
  refine (addLiveColumn_yields hfloor hk ⟨l, d, rfl, h⟩).bind ?_
  rintro ⟨f, flops⟩ ⟨l, d, rfl, h⟩
  simp only [clearColumn_ok hk, ok_bind, Fill.diag_factor, Fill.active_factor, Fill.rowPattern_factor, store_table _ hk,
    fetch_table hk]
  have hkill := killRow_ok sigma (fun i c => if c = k then 0 else l i c) (Function.update d k 1) (fun _ => 0)
    (fun _ => 0) hk hact (table s.size (Function.update act k false))
  simp only [Fill.factor] at hkill ⊢
  rw [hkill, ok_bind]
  exact ⟨_, _, rfl, h.deactivate k⟩

theorem resymbol_yields {E : Prop} {f : LdlFactor K} (h : s.AtRest act sigma f) :
    Yields E (fun r => s.AtRest act sigma r.1) f.resymbol := by
  obtain ⟨l, d, rfl, h⟩ := h
  obtain ⟨flops, hsorted⟩ : ∃ flops, (s.factor act l d sigma (fun _ => 0) fun _ => 0).resymbol = .ok (_, flops) :=
    @resymbol_ok K _ s act act sigma l d (fun _ => 0) fun _ => 0
  rw [hsorted]
  refine ⟨_, _, rfl, fun i hi _ hact => ?_, fun i _ hact => ?_, fun i c hhas hact hc => ?_⟩
  · rw [if_pos hact]
    exact h.le_pivot i hi trivial hact
  · rw [hact]
    rfl
  · rw [if_pos hact]
    exact h.entry_eq_zero i c hhas hact hc

/-- The values of the new column, with both work vectors cleared. -/
theorem fillColumn_yields {E : Prop} {n : ℕ} {rows : List ℕ} {v w w2 : ℕ → K} {p : K} (hrows : rows.Nodup)
    (hn : ∀ i ∈ rows, i < n) (hp : Scalar.isDivisor p = false → E) :
    Yields E (fun r => r = (rows.map fun i => (i, (w i - w2 i) / p), table n fun i => if i ∈ rows then 0 else w i,
        table n fun i => if i ∈ rows then 0 else w2 i))
      (fillColumn p (rows.map fun i => (i, v i)) (table n w) (table n w2)) := by
  by_cases hdiv : Scalar.isDivisor p = true
  · rw [fillColumn_table hrows hn hdiv]
    rfl
  · cases rows with
    | nil => simp [fillColumn, Yields, pure, Except.pure]
    | cons i rows =>
        have hi := hn i List.mem_cons_self
        simp only [List.map_cons, fillColumn, fetch_table hi, ok_bind]
        exact (Scalar.quotient_yields _ _ hp).bind fun _ h => absurd h.1 hdiv

theorem addRowWith_yields (ha : a.Formatted) (hT : SparseMatrix.IsTranspose a aT) (hs : s.Covers a)
    (hfloor : ∀ x, sigma ≤ floor x) (hfree : a.ncols ≤ free.size) (hk : k < s.size) (hact : act k = false)
    {f : LdlFactor K} (h : s.AtRest act sigma f) :
    Yields (Blocked sigma) (fun r => s.AtRest (Function.update act k true) sigma r.1)
      (f.addRowWith floor a aT free k) := by
  obtain ⟨l, d, rfl, h⟩ := h
  set act' := Function.update act k true with hact'
  have hself : act' k = true := Function.update_self ..
  have hrevive := reviveRow_ok sigma l d (fun _ => 0) (fun _ => 0) hk hact (table s.size act')
  rw [addRowWith]
  refine Yields.of_ok (fetch_table hk) (Yields.of_ok (require_of_true (by rw [hact]; rfl)) ?_)
  refine Yields.of_ok (store_table true hk) (Yields.of_ok (fetch_table hk) ?_)
  refine Yields.of_ok hrevive ((gatherFullRow_yields ha hT hs hfree hk).bind ?_)
  rintro ⟨_, gathered⟩ ⟨w, rfl, hw⟩
  refine Yields.of_ok (fetch_table hk) (Yields.of_ok (store_table 0 hk) ?_)
  refine (foldlM_reduced act' sigma (· ≠ k) (s.Live act' k) d hk
    (fun j r hhas hj hr => hr.eliminateNew_yields hhas hj hself (s.lt_of_has hhas).1.ne fun i => id)
    (fun j r => eliminateNew_of_inactive)
    ⟨_, Function.update w k 0, fun _ => 0, rfl, h.activate k, ?_, .zero⟩).bind fun r hr => ?_
  · refine (hw.clear k).mono fun i hi => ?_
    rcases hi.1.2 with hik | hhas | hhas
    · exact absurd hik hi.2
    · exact Or.inl ⟨Nat.zero_le i, hhas, hi.1.1⟩
    · exact Or.inr ⟨hhas, hi.1.1⟩
  obtain ⟨l', w', w2', hf, hreg, hw', hw2'⟩ := hr.support
  rw [hf]
  have hdone : s.Regularized act' sigma (fun _ => True) l' (Function.update d k (floor r.pivot)) :=
    hreg.set_pivot hself (hfloor _) fun _ _ => id
  refine Yields.of_ok (fetch_table hk) ?_
  refine (fillColumn_yields (((s.column_ascending k).filter act').imp Nat.ne_of_lt)
    (fun i hi => (Fill.column_lt i (List.mem_of_mem_filter hi)).2) fun hdiv => ⟨_, hfloor _, hdiv⟩).bind ?_
  rintro _ rfl
  refine Yields.of_ok (store_table _ hk) (Yields.of_ok (store_table _ hk) ?_)
  have hclear : ∀ {w : ℕ → K}, Supported w (s.Live act' k) →
      (fun i => if i ∈ (s.column k).filter act' then 0 else w i) = fun _ => 0 := fun hw => funext fun i => by
    split_ifs with hi
    · rfl
    · exact hw i fun hlive => hi (Fill.mem_filter_column.2 hlive)
  refine (addLiveColumn_yields hfloor hk
    ⟨_, _, ?_, hdone.set_column hself fun i _ => (w' i - w2' i) / floor r.pivot⟩).bind fun r hr => hr
  rw [hclear hw', hclear hw2', Fill.table_update_column s.size k fun i _ => (w' i - w2' i) / floor r.pivot]
  rfl

end Operations

end LdlFactor

end PolyProjection
