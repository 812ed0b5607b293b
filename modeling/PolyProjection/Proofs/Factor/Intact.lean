import Mathlib
import PolyProjection.Proofs.Factor.Modification
import PolyProjection.Proofs.Factor.Symbolic

/-! Sequences of operations on a factor. Each operation leads from a factor at rest to one at rest, with the active rows
and the regularization that it selects, and a factor at rest has the representation that all operations rely on. -/

namespace PolyProjection

set_option linter.unusedSectionVars false

variable {K : Type} [Scalar K]

variable {s : Fill} {a aT : SparseMatrix K} {act act' : ℕ → Bool} {sigma sigma' : K}

/-- An operation on a factor. -/
inductive FactorOperation (K : Type) where
  | factorize (free active : Array Bool) (sigma : K)
  | update (col : ℕ)
  | downdate (col : ℕ)
  | addRow (free : Array Bool) (row : ℕ)
  | deleteRow (row : ℕ)
  | resymbol

namespace FactorOperation

/-- Masks have the lengths of the matrix, columns are any ones of it, and rows that enter or leave are inactive or
active at that time. -/
def Admitted (a : SparseMatrix K) (active : Array Bool) : FactorOperation K → Prop
  | factorize free active _ => free.size = a.ncols ∧ active.size = a.nrows
  | update col => col < a.ncols
  | downdate col => col < a.ncols
  | addRow free row => a.ncols ≤ free.size ∧ active[row]? = some false
  | deleteRow row => active[row]? = some true
  | resymbol => True

instance Admitted.decidable (a : SparseMatrix K) (active : Array Bool) :
    (op : FactorOperation K) → Decidable (op.Admitted a active)
  | factorize .. => inferInstanceAs (Decidable (_ ∧ _))
  | update _ => inferInstanceAs (Decidable (_ < _))
  | downdate _ => inferInstanceAs (Decidable (_ < _))
  | addRow .. => inferInstanceAs (Decidable (_ ∧ _))
  | deleteRow _ => inferInstanceAs (Decidable (_ = _))
  | resymbol => instDecidableTrue

/-- The active rows after an operation. -/
def activeAfter (active : Array Bool) : FactorOperation K → Array Bool
  | factorize _ active _ => active
  | addRow _ row => active.setIfInBounds row true
  | deleteRow row => active.setIfInBounds row false
  | _ => active

/-- The regularization after an operation. -/
def sigmaAfter (sigma : K) : FactorOperation K → K
  | factorize _ _ sigma => sigma
  | _ => sigma

/-- The factor after an operation. -/
def apply (a aT : SparseMatrix K) (f : LdlFactor K) : FactorOperation K → Checked (LdlFactor K)
  | factorize free active sigma => Prod.fst <$> f.factorize a aT free active sigma
  | update col => Prod.fst <$> f.update a col
  | downdate col => Prod.fst <$> f.downdate a col
  | addRow free row => Prod.fst <$> f.addRow a aT free row
  | deleteRow row => Prod.fst <$> f.deleteRow row
  | resymbol => Prod.fst <$> f.resymbol

/-- Every operation is admitted where the operations before it lead. -/
def AllAdmitted (a : SparseMatrix K) : Array Bool → List (FactorOperation K) → Prop
  | _, [] => True
  | active, op :: ops => op.Admitted a active ∧ AllAdmitted a (op.activeAfter active) ops

instance AllAdmitted.decidable (a : SparseMatrix K) :
    (active : Array Bool) → (ops : List (FactorOperation K)) → Decidable (AllAdmitted a active ops)
  | _, [] => instDecidableTrue
  | active, op :: ops =>
    have := AllAdmitted.decidable a (op.activeAfter active) ops
    inferInstanceAs (Decidable (_ ∧ _))

/-- One of the operations factorizes with the regularization `sigma`. -/
def Regularizes (ops : List (FactorOperation K)) (sigma : K) : Prop :=
  ∃ free active, factorize free active sigma ∈ ops

variable {active : Array Bool} {f : LdlFactor K} {op : FactorOperation K} {ops : List (FactorOperation K)}

theorem size_activeAfter (h : active.size = a.nrows) (hop : op.Admitted a active) :
    (op.activeAfter active).size = a.nrows := by
  cases op with
  | factorize free active sigma => exact hop.2
  | addRow free row => exact (Array.size_setIfInBounds ..).trans h
  | deleteRow row => exact (Array.size_setIfInBounds ..).trans h
  | update | downdate | resymbol => exact h

theorem size_foldl_activeAfter (h : active.size = a.nrows) (hops : AllAdmitted a active ops) :
    (ops.foldl activeAfter active).size = a.nrows := by
  induction ops generalizing active with
  | nil => exact h
  | cons op ops ih => exact ih (size_activeAfter h hops.1) hops.2

/-- An admitted operation leads from a factor at rest to one at rest. -/
theorem apply_yields [OrderedScalar K] (ha : a.Formatted) (hT : SparseMatrix.IsTranspose a aT) (hs : s.Covers a)
    (hsize : active.size = a.nrows) (hop : op.Admitted a active)
    (h : s.AtRest (fun i => active.getD i false) sigma f) :
    Yields (Blocked (op.sigmaAfter sigma))
      (s.AtRest (fun i => (op.activeAfter active).getD i false) (op.sigmaAfter sigma)) (op.apply a aT f) := by
  have hsigma : f.sigma = sigma := by
    obtain ⟨l, d, rfl, -⟩ := h
    rfl
  have hrow : ∀ {row b}, active[row]? = some b → row < active.size ∧ row < s.size := fun hb => by
    have hlt := (Array.getElem?_eq_some_iff.1 hb).1
    exact ⟨hlt, hs.size_eq ▸ hsize ▸ hlt⟩
  cases op with
  | factorize free active sigma =>
      exact (LdlFactor.factorizeWith_yields ha hT hs (LdlFactor.le_lift sigma) hop.1 hop.2 h).map fun _ h => h
  | update col =>
      exact (LdlFactor.addColumn_yields ha hs (hsigma ▸ LdlFactor.le_lift sigma) hop h).map fun _ h => h
  | downdate col =>
      exact (LdlFactor.addColumn_yields ha hs (hsigma ▸ LdlFactor.le_lift sigma) hop h).map fun _ h => h
  | addRow free row =>
      obtain ⟨hlt, hrow⟩ := hrow hop.2
      rw [activeAfter, setIfInBounds_getD hlt]
      exact (LdlFactor.addRowWith_yields ha hT hs (hsigma ▸ LdlFactor.le_lift sigma) hop.1 hrow
        (getD_of_getElem? hop.2) h).map fun _ h => h
  | deleteRow row =>
      obtain ⟨hlt, hrow⟩ := hrow hop
      rw [activeAfter, setIfInBounds_getD hlt]
      exact (LdlFactor.deleteRowWith_yields (hsigma ▸ LdlFactor.le_lift sigma) hrow (getD_of_getElem? hop) h).map
        fun _ h => h
  | resymbol => exact (LdlFactor.resymbol_yields h).map fun _ h => h

/-- A sequence of operations leads from a factor at rest to one at rest. -/
theorem foldlM_apply_yields [OrderedScalar K] (ha : a.Formatted) (hT : SparseMatrix.IsTranspose a aT) (hs : s.Covers a)
    (hsize : active.size = a.nrows) (hops : AllAdmitted a active ops)
    (h : s.AtRest (fun i => active.getD i false) sigma f) :
    Yields (∃ sigma', (sigma' = sigma ∨ Regularizes ops sigma') ∧ Blocked sigma')
      (s.AtRest (fun i => (ops.foldl activeAfter active).getD i false) (ops.foldl sigmaAfter sigma))
      (ops.foldlM (apply a aT) f) := by
  induction ops generalizing active sigma f with
  | nil => exact h
  | cons op ops ih =>
      obtain ⟨hop, hops⟩ := hops
      have hnow : op.sigmaAfter sigma = sigma ∨ Regularizes (op :: ops) (op.sigmaAfter sigma) := by
        cases op with
        | factorize free active sigma => exact Or.inr ⟨free, active, List.mem_cons_self⟩
        | update | downdate | addRow | deleteRow | resymbol => exact Or.inl rfl
      rw [List.foldlM_cons]
      refine ((apply_yields ha hT hs hsize hop h).mono (fun hE => ⟨_, hnow, hE⟩) fun _ => id).bind fun f' hf' => ?_
      refine (ih (size_activeAfter hsize hop) hops hf').mono ?_ fun _ => id
      rintro ⟨sigma', hsigma' | ⟨free, active, hmem⟩, hE⟩
      · exact ⟨sigma', hsigma' ▸ hnow, hE⟩
      · exact ⟨sigma', Or.inr ⟨free, active, List.mem_cons_of_mem op hmem⟩, hE⟩

end FactorOperation

/-- The rows of the pattern of a column, the active ones first. -/
def FactorColumn.rows {α : Type} (c : FactorColumn α) : List ℕ :=
  c.liveRows ++ c.dead

namespace LdlFactor

/-- The representation of a factor `f` that was made as `made`: each column has the rows of its pattern, those that are
active before the others and each part in order, with a value for each active row; the work vectors are zero; inactive
rows are those of the identity, and active rows have pivots that are not below the regularization. -/
structure Intact (made f : LdlFactor K) : Prop where
  size_columns : f.columns.size = made.columns.size
  size_diag : f.diag.size = made.columns.size
  size_active : f.active.size = made.columns.size
  rowPattern_eq : f.rowPattern = made.rowPattern
  rows_perm : ∀ (j : ℕ) (c c' : FactorColumn K), f.columns[j]? = some c → made.columns[j]? = some c' →
    c.rows.Perm c'.rows
  parallel : ∀ c ∈ f.columns, (c.live.map Prod.snd).length = c.liveRows.length
  partitioned : f.isPartitioned = true
  work_eq : f.work = Array.replicate made.columns.size 0
  work2_eq : f.work2 = Array.replicate made.columns.size 0
  identity : ∀ i : ℕ, f.active[i]? = some false →
    f.diag[i]? = some 1 ∧ ∃ c : FactorColumn K, f.columns[i]? = some c ∧ ∀ e ∈ c.live, e.2 = 0
  regularized : ∀ i : ℕ, f.active[i]? = some true → ∃ d, f.diag[i]? = some d ∧ f.sigma ≤ d

theorem isPartitioned_factor (l : ℕ → ℕ → K) (d w w2 : ℕ → K) :
    (s.factor act l d sigma w w2).isPartitioned = true := by
  rw [isPartitioned, Array.all_eq_true']
  intro c hc
  obtain ⟨j, -, rfl⟩ := Array.mem_map.1 hc
  have hactive : ∀ (b : Bool), ∀ i ∈ s.column j, (table s.size act).getD i b = act i := fun b i hi =>
    getD_table_of_lt (Fill.column_lt i hi).2 b
  rw [FactorColumn.liveRows_ofRows, Bool.and_eq_true, Bool.and_eq_true, Bool.and_eq_true, List.all_eq_true,
    List.all_eq_true]
  refine ⟨⟨⟨?_, ?_⟩, fun i hi => ?_⟩, fun i hi => ?_⟩
  · exact isAscending_iff_pairwise.2 ((s.column_ascending j).filter act)
  · exact isAscending_iff_pairwise.2 ((s.column_ascending j).filter fun i => !act i)
  · rw [Fill.active_factor, hactive false i (List.mem_of_mem_filter hi)]
    exact List.of_mem_filter hi
  · obtain ⟨hi, hact⟩ := List.mem_filter.1 hi
    rw [Fill.active_factor, hactive true i hi, hact]

/-- Factors at rest over one pattern have the same representation. -/
theorem intact_of_atRest {f made : LdlFactor K} (hmade : s.AtRest act' sigma' made) (h : s.AtRest act sigma f) :
    Intact made f := by
  obtain ⟨l', d', rfl, -⟩ := hmade
  obtain ⟨l, d, rfl, h⟩ := h
  have hrows : ∀ (act : ℕ → Bool) (v : ℕ → K) (rows : List ℕ), (FactorColumn.ofRows rows act v).rows.Perm rows :=
    fun act v rows => by
      rw [FactorColumn.rows, FactorColumn.liveRows_ofRows]
      exact List.filter_append_perm act rows
  have hsize : (s.factor act' l' d' sigma' (fun _ => 0) fun _ => 0).columns.size = s.size := size_table _ _
  -- what is looked up in a table is the value of its function
  have hlookup : ∀ {β : Type} {g : ℕ → β} {i : ℕ} {x : β}, (table s.size g)[i]? = some x → i < s.size ∧ g i = x := by
    intro β g i x hx
    rw [getElem?_table] at hx
    split_ifs at hx with hi
    exact ⟨hi, Option.some.inj hx⟩
  refine ⟨(size_table _ _).trans hsize.symm, (size_table _ _).trans hsize.symm, (size_table _ _).trans hsize.symm, rfl,
    fun j c c' hc hc' => ?_, fun c _ => ?_, isPartitioned_factor l d _ _, ?_, ?_, fun i hi => ?_, fun i hi => ?_⟩
  · obtain ⟨-, rfl⟩ := hlookup hc
    obtain ⟨-, rfl⟩ := hlookup hc'
    exact (hrows _ _ _).trans (hrows _ _ _).symm
  · rw [FactorColumn.liveRows, List.length_map, List.length_map]
  · rw [hsize, replicate_eq_table]
    rfl
  · rw [hsize, replicate_eq_table]
    rfl
  · obtain ⟨hlt, hact⟩ := hlookup hi
    refine ⟨?_, _, getElem?_table_of_lt hlt, fun e he => ?_⟩
    · rw [Fill.diag_factor, getElem?_table_of_lt hlt, h.pivot_eq_one i hlt hact]
    · obtain ⟨r, hr, rfl⟩ := List.mem_map.1 he
      exact h.entry_eq_zero r i (Fill.mem_column.1 (List.mem_of_mem_filter hr)) (List.of_mem_filter hr) hact
  · obtain ⟨hlt, hact⟩ := hlookup hi
    exact ⟨d i, getElem?_table_of_lt hlt, h.le_pivot i hlt trivial hact⟩

end LdlFactor

end PolyProjection
