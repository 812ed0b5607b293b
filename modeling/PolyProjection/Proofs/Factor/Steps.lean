import Mathlib
import PolyProjection.Proofs.Factor.NewRow
import PolyProjection.Proofs.Factor.Pattern
import PolyProjection.Proofs.Factor.Update

/-! Sequences of changes of a factor. After a factorization every admitted change leads from the factor of the
current columns and rows to that of the changed ones, so a sequence of any length ends where a factorization from
scratch does. -/

namespace PolyProjection

set_option linter.unusedSectionVars false

variable {K : Type} [Field K] [LinearOrder K] [IsStrictOrderedRing K]

/-- What a factor is of: the free columns, the active rows and the regularization. -/
structure Selection (K : Type) where
  free : Array Bool
  active : Array Bool
  sigma : K

/-- A change of a factor. -/
inductive FactorStep (K : Type) where
  | factorize (selection : Selection K)
  | update (col : ℕ)
  | downdate (col : ℕ)
  | addRow (row : ℕ)
  | deleteRow (row : ℕ)
  | resymbol

/-- The masks have the lengths of the matrix, and the regularization is positive. -/
structure Selection.Suits (sel : Selection K) (a : SparseMatrix K) : Prop where
  size_free : sel.free.size = a.ncols
  size_active : sel.active.size = a.nrows
  sigma_pos : 0 < sel.sigma

namespace FactorStep

/-- A column that enters is outside of the factor, one that leaves is in it, and so for rows. -/
def Admitted (a : SparseMatrix K) (sel : Selection K) : FactorStep K → Prop
  | factorize selection => selection.Suits a
  | update col => sel.free[col]? = some false
  | downdate col => sel.free[col]? = some true
  | addRow row => sel.active[row]? = some false
  | deleteRow row => sel.active[row]? = some true
  | resymbol => True

/-- What the factor is of after a change. -/
def select (sel : Selection K) : FactorStep K → Selection K
  | factorize selection => selection
  | update col => { sel with free := sel.free.setIfInBounds col true }
  | downdate col => { sel with free := sel.free.setIfInBounds col false }
  | addRow row => { sel with active := sel.active.setIfInBounds row true }
  | deleteRow row => { sel with active := sel.active.setIfInBounds row false }
  | resymbol => sel

/-- The changed factor. -/
def apply (a aT : SparseMatrix K) (sel : Selection K) (f : LdlFactor K) : FactorStep K → Checked (LdlFactor K)
  | factorize selection => Prod.fst <$> f.factorize a aT selection.free selection.active selection.sigma
  | update col => Prod.fst <$> f.update a col
  | downdate col => Prod.fst <$> f.downdate a col
  | addRow row => Prod.fst <$> f.addRow a aT sel.free row
  | deleteRow row => Prod.fst <$> f.deleteRow row
  | resymbol => Prod.fst <$> f.resymbol

/-- The changed factor where `floor` makes the pivots instead of their lifting to the regularization. -/
def applyWith (floor : K → K → K) (a aT : SparseMatrix K) (sel : Selection K) (f : LdlFactor K) :
    FactorStep K → Checked (LdlFactor K)
  | factorize selection => Prod.fst <$>
      f.factorizeWith (floor selection.sigma) a aT selection.free selection.active selection.sigma
  | update col => Prod.fst <$> f.addColumn (floor f.sigma) a col 1
  | downdate col => Prod.fst <$> f.addColumn (floor f.sigma) a col (-1)
  | addRow row => Prod.fst <$> f.addRowWith (floor f.sigma) a aT sel.free row
  | deleteRow row => Prod.fst <$> f.deleteRowWith (floor f.sigma) row
  | resymbol => Prod.fst <$> f.resymbol

theorem applyWith_lift (a aT : SparseMatrix K) (sel : Selection K) (f : LdlFactor K) (step : FactorStep K) :
    step.applyWith LdlFactor.lift a aT sel f = step.apply a aT sel f := by
  cases step <;> rfl

/-- Every step is admitted where the steps before it lead. -/
def AllAdmitted (a : SparseMatrix K) : Selection K → List (FactorStep K) → Prop
  | _, [] => True
  | sel, step :: steps => step.Admitted a sel ∧ AllAdmitted a (step.select sel) steps

/-- What the factor is of after a sequence of changes. -/
def selectAll (sel : Selection K) (steps : List (FactorStep K)) : Selection K :=
  steps.foldl select sel

/-- The factor after a sequence of changes. -/
def run (change : Selection K → LdlFactor K → FactorStep K → Checked (LdlFactor K)) :
    Selection K → LdlFactor K → List (FactorStep K) → Checked (LdlFactor K)
  | _, f, [] => .ok f
  | sel, f, step :: steps => do run change (step.select sel) (← change sel f step) steps

end FactorStep

/-- The factor of a selection. -/
noncomputable def Fill.chosen (s : Fill) (a : SparseMatrix K) (sel : Selection K) : LdlFactor K :=
  s.canonical a (fun j => sel.free.getD j false) (fun i => sel.active.getD i false) sel.sigma

variable {s : Fill} {a aT : SparseMatrix K} {sel : Selection K} {floor : K → K → K}

namespace Selection.Suits

variable (h : sel.Suits a)

include h in
theorem table_free : table a.ncols (fun j => sel.free.getD j false) = sel.free := by
  rw [← h.size_free, table_getD]

include h in
theorem table_active (hs : s.Covers a) : table s.size (fun i => sel.active.getD i false) = sel.active := by
  rw [hs.size_eq, ← h.size_active, table_getD]

include h in
theorem select {step : FactorStep K} (hstep : step.Admitted a sel) : (step.select sel).Suits a := by
  cases step with
  | factorize selection => exact hstep
  | update col => exact ⟨by simp [FactorStep.select, h.size_free], h.size_active, h.sigma_pos⟩
  | downdate col => exact ⟨by simp [FactorStep.select, h.size_free], h.size_active, h.sigma_pos⟩
  | addRow row => exact ⟨h.size_free, by simp [FactorStep.select, h.size_active], h.sigma_pos⟩
  | deleteRow row => exact ⟨h.size_free, by simp [FactorStep.select, h.size_active], h.sigma_pos⟩
  | resymbol => exact h

end Selection.Suits

namespace LdlFactor

/-- A factorization of any values on the pattern gives the factor of the selection. -/
theorem factorize_chosen (ha : a.Formatted) (hT : SparseMatrix.IsTranspose a aT) (hs : s.Covers a) (h : sel.Suits a)
    (hfloor : ∀ x, sel.sigma ≤ x → floor sel.sigma x = x) {act : ℕ → Bool} {l : ℕ → ℕ → K} {d : ℕ → K} {sigma : K} :
    ∃ flops, (s.factor act l d sigma (fun _ => 0) fun _ => 0).factorizeWith (floor sel.sigma) a aT sel.free sel.active
      sel.sigma = .ok (s.chosen a sel, flops) := by
  have hok : ∃ flops, (s.factor act l d sigma (fun _ => 0) fun _ => 0).factorizeWith (floor sel.sigma) a aT
      (table a.ncols fun j => sel.free.getD j false) (table s.size fun i => sel.active.getD i false) sel.sigma =
        .ok (s.chosen a sel, flops) :=
    factorizeWith_ok (floor sel.sigma) ha hT hs h.sigma_pos hfloor
  rwa [h.table_free, h.table_active hs] at hok

theorem resymbol_chosen :
    ∃ flops, (s.chosen a sel).resymbol = .ok (s.chosen a sel, flops) := by
  obtain ⟨flops, hok⟩ := resymbol_ok (s := s) (w := fun _ => 0)
    (l := lower (normal a (fun j => sel.free.getD j false) (fun i => sel.active.getD i false) sel.sigma))
    (d := pivot (normal a (fun j => sel.free.getD j false) (fun i => sel.active.getD i false) sel.sigma))
  refine ⟨flops, Eq.trans hok (congrArg Except.ok (Prod.ext (Fill.factor_congr (fun i c _ hi => ?_) (fun i _ => ?_)
    (fun _ _ => rfl) fun _ _ => rfl) rfl))⟩
  · rw [if_pos hi]
  · cases hi : sel.active.getD i false with
    | true => rfl
    | false => exact (pivot_of_inactive hi).symm

/-- A column enters or leaves, as the multiple of its product says. -/
theorem addColumn_chosen (ha : a.Formatted) (hs : s.Covers a) (h : sel.Suits a)
    (hfloor : ∀ x, sel.sigma ≤ x → floor sel.sigma x = x) {col : ℕ} {old new : Bool} {alpha : K}
    (hold : sel.free[col]? = some old) (halpha : alpha = (if new then 1 else 0) - if old then 1 else 0) :
    ∃ flops, (s.chosen a sel).addColumn (floor sel.sigma) a col alpha =
      .ok (s.chosen a { sel with free := sel.free.setIfInBounds col new }, flops) := by
  have hcol := (Array.getElem?_eq_some_iff.1 hold).1
  rw [Fill.chosen, Fill.chosen, setIfInBounds_getD hcol]
  exact addColumn_ok (floor sel.sigma) ha hs h.sigma_pos hfloor (h.size_free ▸ hcol)
    (fun c hc => Function.update_of_ne hc ..) (by rw [Function.update_self, getD_of_getElem? hold, halpha])

/-- One change leads from the factor of a selection to that of the changed selection. -/
theorem applyWith_ok (ha : a.Formatted) (hT : SparseMatrix.IsTranspose a aT) (hs : s.Covers a) (h : sel.Suits a)
    (hfloor : ∀ sigma x, sigma ≤ x → floor sigma x = x) {step : FactorStep K} (hstep : step.Admitted a sel) :
    step.applyWith floor a aT sel (s.chosen a sel) = .ok (s.chosen a (step.select sel)) := by
  have hrow : ∀ {row b}, sel.active[row]? = some b → row < s.size := fun hb => by
    rw [hs.size_eq, ← h.size_active]
    exact (Array.getElem?_eq_some_iff.1 hb).1
  cases step with
  | factorize selection =>
      obtain ⟨flops, hok⟩ := factorize_chosen ha hT hs hstep (hfloor _)
      rw [FactorStep.applyWith, Fill.chosen, Fill.canonical, hok]
      rfl
  | update col =>
      obtain ⟨flops, hok⟩ := addColumn_chosen ha hs h (hfloor _) hstep
        (show (1 : K) = (if true then 1 else 0) - if false then 1 else 0 by simp)
      exact congrArg (Prod.fst <$> ·) hok
  | downdate col =>
      obtain ⟨flops, hok⟩ := addColumn_chosen ha hs h (hfloor _) hstep
        (show (-1 : K) = (if false then 1 else 0) - if true then 1 else 0 by simp)
      exact congrArg (Prod.fst <$> ·) hok
  | addRow row =>
      obtain ⟨flops, hok⟩ := addRowWith_ok _ (fun i => sel.active.getD i false) (floor sel.sigma) ha hT hs h.sigma_pos
        (hfloor _) (hrow hstep) (getD_of_getElem? hstep)
      rw [h.table_free] at hok
      rw [Fill.chosen, Fill.chosen, FactorStep.select, setIfInBounds_getD (Array.getElem?_eq_some_iff.1 hstep).1]
      exact congrArg (Prod.fst <$> ·) hok
  | deleteRow row =>
      obtain ⟨flops, hok⟩ := deleteRowWith_ok _ (fun i => sel.active.getD i false) (floor sel.sigma) hs h.sigma_pos
        (hfloor _) (hrow hstep) (getD_of_getElem? hstep)
      rw [Fill.chosen, Fill.chosen, FactorStep.select, setIfInBounds_getD (Array.getElem?_eq_some_iff.1 hstep).1]
      exact congrArg (Prod.fst <$> ·) hok
  | resymbol =>
      obtain ⟨flops, hok⟩ := resymbol_chosen (s := s) (a := a)
      exact congrArg (Prod.fst <$> ·) hok

/-- A sequence of changes leads to the factor of what was selected last. -/
theorem run_applyWith_ok (ha : a.Formatted) (hT : SparseMatrix.IsTranspose a aT) (hs : s.Covers a) (h : sel.Suits a)
    (hfloor : ∀ sigma x, sigma ≤ x → floor sigma x = x) {steps : List (FactorStep K)}
    (hsteps : FactorStep.AllAdmitted a sel steps) :
    FactorStep.run (fun sel f step => step.applyWith floor a aT sel f) sel (s.chosen a sel) steps =
      .ok (s.chosen a (FactorStep.selectAll sel steps)) ∧ (FactorStep.selectAll sel steps).Suits a := by
  induction steps generalizing sel with
  | nil => exact ⟨rfl, h⟩
  | cons step steps ih =>
      obtain ⟨hstep, hsteps⟩ := hsteps
      rw [FactorStep.run, applyWith_ok ha hT hs h hfloor hstep, ok_bind]
      exact ih (h.select hstep) hsteps

/-- The entry of the factor in row `i` of column `j`, with ones on the diagonal. -/
def unitEntry (f : LdlFactor K) (i j : ℕ) : K :=
  if i = j then 1 else (f.columns[j]?.bind fun c => c.value? i).getD 0

theorem value?_ofRows {rows : List ℕ} {act : ℕ → Bool} {v : ℕ → K} (i : ℕ) :
    (FactorColumn.ofRows rows act v).value? i = if i ∈ rows ∧ act i = true then some (v i) else none := by
  rw [FactorColumn.value?, FactorColumn.ofRows]
  simp only [← List.mem_filter]
  induction rows.filter act with
  | nil => simp
  | cons r rows ih =>
      rw [List.map_cons, List.find?_cons]
      by_cases hr : r = i
      · simp [hr]
      · simp only [List.mem_cons, Ne.symm hr, false_or, beq_eq_false_iff_ne.2 hr, ih]

theorem unitEntry_canonical {free act : ℕ → Bool} {sigma : K} (hs : s.Covers a) (hsigma : 0 < sigma) {i j : ℕ}
    (hj : j < s.size) :
    (s.canonical a free act sigma).unitEntry i j = unitLower (normal a free act sigma) i j := by
  rw [unitEntry, unitLower]
  split_ifs with hij hlt
  · rfl
  · rw [Fill.canonical, Fill.factor, getElem?_table_of_lt hj, Option.bind_some, value?_ofRows]
    split_ifs with hhas
    · rfl
    · exact ((hs.eliminates hsigma).lower_eq_zero i j hlt fun h => hhas ⟨Fill.mem_column.2 h.1, h.2.1⟩).symm
  · rw [Fill.canonical, Fill.factor, getElem?_table_of_lt hj, Option.bind_some, value?_ofRows,
      if_neg fun h => hlt (Fill.column_lt i h.1).1, Option.getD_none]

/-- The factor multiplies to the matrix. -/
theorem sum_unitEntry_canonical {free act : ℕ → Bool} {sigma : K} (hs : s.Covers a) (hsigma : 0 < sigma) {i k : ℕ}
    (hi : i < a.nrows) (hk : k < a.nrows) :
    ∑ l ∈ Finset.range a.nrows, (s.canonical a free act sigma).unitEntry i l *
      coord (s.canonical a free act sigma).diag l * (s.canonical a free act sigma).unitEntry k l =
        normal a free act sigma i k := by
  rw [← sum_unitLower normal_symm (fun l _ => (pivot_normal_pos hsigma l).ne') hi hk]
  refine Finset.sum_congr rfl fun l hl => ?_
  have hl : l < s.size := hs.size_eq ▸ Finset.mem_range.1 hl
  rw [unitEntry_canonical hs hsigma hl, unitEntry_canonical hs hsigma hl, Fill.canonical, Fill.diag_factor,
    coord_table _ hl]

/-- **Changes of a factor are as good as a factorization.** After a factorization and any admitted changes the factor
is the one that a factorization from scratch gives for the current columns and rows, down to the order of its columns.
Its product is `A_F * A_Fᵀ + σ * I` over the active rows and the identity over the others, and it does not matter what
becomes of pivots below the regularization, as there are none. -/
theorem run_eq_factorize (hcheck : a.check = .ok ()) (haT : a.transpose = .ok aT) (hsel : sel.Suits a)
    {steps : List (FactorStep K)} (hsteps : FactorStep.AllAdmitted a sel steps) :
    ∃ f₀ f, ofMatrix a aT = .ok (.ok f₀) ∧
      FactorStep.run (fun sel f step => step.apply a aT sel f) sel f₀ (.factorize sel :: steps) = .ok f ∧
      (∀ floor : K → K → K, (∀ sigma x, sigma ≤ x → floor sigma x = x) →
        FactorStep.run (fun sel f step => step.applyWith floor a aT sel f) sel f₀ (.factorize sel :: steps) = .ok f) ∧
      (∃ flops, f₀.factorize a aT (FactorStep.selectAll sel steps).free (FactorStep.selectAll sel steps).active
        (FactorStep.selectAll sel steps).sigma = .ok (f, flops)) ∧
      ∀ i < a.nrows, ∀ k < a.nrows, ∑ l ∈ Finset.range a.nrows, f.unitEntry i l * coord f.diag l * f.unitEntry k l =
        normal a (fun j => (FactorStep.selectAll sel steps).free.getD j false)
          (fun i => (FactorStep.selectAll sel steps).active.getD i false) (FactorStep.selectAll sel steps).sigma i k := by
  have ha := SparseMatrix.formatted_of_check hcheck
  have hT := ha.isTranspose_of_ok haT
  have hs := FillPattern.covers_fill ha
  have hrun : ∀ floor : K → K → K, (∀ sigma x, sigma ≤ x → floor sigma x = x) →
      FactorStep.run (fun sel f step => step.applyWith floor a aT sel f) sel
        ((FillPattern.fill a ha).factor (fun _ => false) (fun _ _ => 0) (fun _ => 1) 0 (fun _ => 0) fun _ => 0)
        (.factorize sel :: steps) = .ok ((FillPattern.fill a ha).chosen a (FactorStep.selectAll sel steps)) := by
    intro floor hfloor
    obtain ⟨flops, hok⟩ := factorize_chosen ha hT hs hsel (hfloor _) (l := fun _ _ => 0) (d := fun _ => 1)
    rw [FactorStep.run, FactorStep.applyWith, hok]
    exact (run_applyWith_ok ha hT hs hsel hfloor hsteps).1
  have hlift : ∀ sigma x : K, sigma ≤ x → lift sigma x = x := fun _ _ => lift_of_le
  have hlast := (run_applyWith_ok ha hT hs hsel hlift hsteps).2
  refine ⟨_, _, ofMatrix_ok hcheck hT, ?_, hrun, factorize_chosen ha hT hs hlast (hlift _),
    fun i hi k hk => sum_unitEntry_canonical hs hlast.sigma_pos hi hk⟩
  simpa only [FactorStep.applyWith_lift] using hrun lift hlift

/-- Two rows that share a column, the second one with a column of its own. -/
def stairs : SparseMatrix ℚ :=
  ⟨2, 2, #[0, 2, 3], #[0, 1, 1], #[1, 2, 1]⟩

theorem run_eq_factorize_stairs : ∃ f₀ f : LdlFactor ℚ, ∃ aT, stairs.transpose = .ok aT ∧
    ofMatrix stairs aT = .ok (.ok f₀) ∧
    FactorStep.run (fun sel f step => step.apply stairs aT sel f) ⟨#[true, false], #[true, true], 1⟩ f₀
      [.factorize ⟨#[true, false], #[true, true], 1⟩, .update 1, .deleteRow 0, .downdate 0, .addRow 0, .resymbol] =
        .ok f ∧
    ∃ flops, f₀.factorize stairs aT #[false, true] #[true, true] 1 = .ok (f, flops) := by
  have hT : stairs.transpose = .ok ⟨2, 2, #[0, 1, 3], #[0, 0, 1], #[1, 2, 1]⟩ := by decide +kernel
  obtain ⟨f₀, f, hf₀, hf, -, hfactorize, -⟩ := run_eq_factorize (by decide +kernel) hT
    (show Selection.Suits ⟨#[true, false], #[true, true], 1⟩ stairs from ⟨rfl, rfl, one_pos⟩)
    (show FactorStep.AllAdmitted stairs _ [.update 1, .deleteRow 0, .downdate 0, .addRow 0, .resymbol] from
      ⟨rfl, rfl, rfl, rfl, trivial, trivial⟩)
  exact ⟨f₀, f, _, hT, hf₀, hf, hfactorize⟩

end LdlFactor

end PolyProjection
