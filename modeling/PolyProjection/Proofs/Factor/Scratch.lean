import Mathlib
import PolyProjection.Proofs.Factor.Operations
import PolyProjection.Proofs.Factor.Pattern
import PolyProjection.Proofs.Ordered

/-! The work vectors of a factor are zero before and after every operation. A vector that is put into them lies in the
active rows of one column of the pattern, and the path of a product passes through all of these rows; as the pattern
contains its fill, what is moved on along the path lies in the active rows of the next column. -/

namespace PolyProjection

set_option linter.unusedSectionVars false

variable {β γ : Type}

/-- The computation answers with a result that has the property `P`, unless it stops at a division that is not
defined, which only happens if `E` holds. -/
def Yields (E : Prop) (P : β → Prop) : Checked β → Prop
  | .ok b => P b
  | .error fault => fault = .zeroDivisor ∧ E

namespace Yields

variable {E E' : Prop} {P P' : β → Prop} {Q : γ → Prop} {x : Checked β}

theorem bind {f : β → Checked γ} (h : Yields E P x) (hf : ∀ b, P b → Yields E Q (f b)) : Yields E Q (x >>= f) := by
  cases x with
  | ok b => exact hf b h
  | error fault => exact h

/-- The first part of a computation is carried out. -/
theorem of_ok {b : β} {f : β → Checked γ} (h : x = .ok b) (hf : Yields E Q (f b)) : Yields E Q (x >>= f) := by
  rw [h]
  exact hf

theorem map {f : β → γ} (h : Yields E P x) (hf : ∀ b, P b → Q (f b)) : Yields E Q (f <$> x) := by
  cases x with
  | ok b => exact hf b h
  | error fault => exact h

theorem mono (h : Yields E P x) (hE : E → E') (hP : ∀ b, P b → P' b) : Yields E' P' x := by
  cases x with
  | ok b => exact hP b h
  | error fault => exact ⟨h.1, hE h.2⟩

theorem iff_or : Yields E P x ↔ (∃ b, x = .ok b ∧ P b) ∨ x = .error .zeroDivisor ∧ E := by
  cases x with
  | ok b => simp [Yields]
  | error fault => simp [Yields]

/-- A loop keeps a statement about the part of its list that is done. -/
theorem foldlM {ι : Type} {f : β → ι → Checked β} (P : List ι → β → Prop) {l : List ι} {b : β} (hb : P [] b)
    (step : ∀ done x rest c, l = done ++ x :: rest → P done c → Yields E (P (done ++ [x])) (f c x)) :
    Yields E (P l) (l.foldlM f b) := by
  induction l using List.reverseRecOn with
  | nil => exact hb
  | append_singleton l x ih =>
      rw [List.foldlM_append]
      refine (ih fun done y rest c hl => step done y (rest ++ [x]) c (by rw [hl]; simp)).bind fun c hc => ?_
      rw [List.foldlM_cons]
      exact (step l x [] c rfl hc).bind fun _ h => h

/-- A loop over the indices below `n` keeps a statement about the indices done so far. -/
theorem foldlM_range {f : β → ℕ → Checked β} {n : ℕ} (P : ℕ → β → Prop) {b : β} (hb : P 0 b)
    (step : ∀ i < n, ∀ c, P i c → Yields E (P (i + 1)) (f c i)) : Yields E (P n) ((List.range n).foldlM f b) := by
  induction n with
  | zero => exact hb
  | succ n ih =>
      rw [List.range_succ, List.foldlM_append]
      refine (ih fun i hi => step i (hi.trans (Nat.lt_succ_self n))).bind fun c hc => ?_
      rw [List.foldlM_cons]
      exact (step n (Nat.lt_succ_self n) c hc).bind fun _ h => h

end Yields

variable {K : Type} [Scalar K]

/-- A value not below `sigma` that cannot be divided by. Floating point has none, and an exact field has none if
`sigma` is positive. -/
def Blocked (sigma : K) : Prop :=
  ∃ x, sigma ≤ x ∧ Scalar.isDivisor x = false

theorem not_blocked_of_pos {F : Type} [Field F] [LinearOrder F] [IsStrictOrderedRing F] {sigma : F} (h : 0 < sigma) :
    ¬ Blocked sigma := by
  rintro ⟨x, hx, hdiv⟩
  exact of_decide_eq_false hdiv (h.trans_le hx).ne'

theorem Scalar.quotient_yields {E : Prop} (a b : K) (hE : isDivisor b = false → E) :
    Yields E (fun x => isDivisor b = true ∧ x = a / b) (quotient a b) := by
  by_cases hb : isDivisor b = true
  · rw [quotient_ok hb]
    exact ⟨hb, rfl⟩
  · rw [quotient, require, if_neg hb]
    exact ⟨rfl, hE (eq_false_of_ne_true hb)⟩

namespace LdlFactor

theorem le_lift [OrderedScalar K] (sigma d : K) : sigma ≤ lift sigma d := by
  rw [lift]
  split_ifs with h
  · exact OrderedScalar.le_refl sigma
  · exact not_not.1 ((not_congr (OrderedScalar.lt_iff d sigma)).1 h)

end LdlFactor

/-- The vector is zero outside the rows in `S`. -/
def Supported (w : ℕ → K) (S : ℕ → Prop) : Prop :=
  ∀ i, ¬ S i → w i = 0

namespace Supported

variable {w : ℕ → K} {S T : ℕ → Prop} {k : ℕ}

theorem zero : Supported (fun _ => (0 : K)) S := fun _ _ => rfl

theorem eq_zero (h : Supported w S) (hS : ∀ i, ¬ S i) : w = fun _ => 0 :=
  funext fun i => h i (hS i)

theorem mono (h : Supported w S) (hST : ∀ i, S i → T i) : Supported w T := fun i hi => h i fun hS => hi (hST i hS)

/-- A row that is set to zero is no longer of the support. -/
theorem clear (h : Supported w S) (k : ℕ) : Supported (Function.update w k 0) fun i => S i ∧ i ≠ k := by
  intro i hi
  by_cases hik : i = k
  · rw [hik, Function.update_self]
  · rw [Function.update_of_ne hik]
    exact h i fun hS => hi ⟨hS, hik⟩

end Supported

/-- The array holds a vector that is zero outside the rows in `S`. -/
def WorkIn (n : ℕ) (S : ℕ → Prop) (x : Array K) : Prop :=
  ∃ w, x = table n w ∧ Supported w S

namespace WorkIn

variable {n i : ℕ} {S : ℕ → Prop} {x : Array K}

theorem store_yields {E : Prop} (h : WorkIn n S x) (hi : i < n) (hS : S i) (v : K) :
    Yields E (WorkIn n S) (store x i v) := by
  obtain ⟨w, rfl, hw⟩ := h
  rw [store_table v hi]
  refine ⟨_, rfl, fun k hk => ?_⟩
  have hki : k ≠ i := fun hki => hk (hki ▸ hS)
  rw [Function.update_of_ne hki]
  exact hw k hk

theorem adjust_yields {E : Prop} (h : WorkIn n S x) (hi : i < n) (hS : S i) (f : K → K) :
    Yields E (WorkIn n S) (adjust x i f) := by
  obtain ⟨w, rfl, hw⟩ := h
  rw [adjust_table f hi, ← store_table _ hi]
  exact store_yields ⟨w, rfl, hw⟩ hi hS (f (w i))

end WorkIn

namespace Fill

variable {s : Fill} {act : ℕ → Bool} {i j k : ℕ}

/-- The pivots of the active rows in `done` are not below `sigma`; inactive rows are those of the identity, with unit
pivots and no value but zero in their columns. -/
structure Regularized (s : Fill) (act : ℕ → Bool) (sigma : K) (done : ℕ → Prop) (l : ℕ → ℕ → K) (d : ℕ → K) :
    Prop where
  le_pivot : ∀ i < s.size, done i → act i = true → sigma ≤ d i
  pivot_eq_one : ∀ i < s.size, act i = false → d i = 1
  entry_eq_zero : ∀ i j, s.has i j = true → act i = true → act j = false → l i j = 0

namespace Regularized

variable {sigma : K} {done done' : ℕ → Prop} {l l' : ℕ → ℕ → K} {d : ℕ → K}

/-- Only the entries in columns of inactive rows matter. -/
theorem of_entries (h : s.Regularized act sigma done l d)
    (hl : ∀ i j, s.has i j = true → act i = true → act j = false → l' i j = l i j) :
    s.Regularized act sigma done l' d :=
  ⟨h.le_pivot, h.pivot_eq_one, fun i j hhas hi hj => (hl i j hhas hi hj).trans (h.entry_eq_zero i j hhas hi hj)⟩

theorem set_entry (h : s.Regularized act sigma done l d) (hj : act j = true) (x : K) :
    s.Regularized act sigma done (fun i c => if i = k ∧ c = j then x else l i c) d :=
  h.of_entries fun i c _ _ hc => if_neg fun hic => by rw [hic.2, hj] at hc; cases hc

theorem set_column (h : s.Regularized act sigma done l d) (hj : act j = true) (v : ℕ → ℕ → K) :
    s.Regularized act sigma done (fun i c => if c = j then v i c else l i c) d :=
  h.of_entries fun i c _ _ hc => if_neg fun hcj => by rw [hcj, hj] at hc; cases hc

theorem set_pivot (h : s.Regularized act sigma done l d) (hj : act j = true) {x : K} (hx : sigma ≤ x)
    (hdone : ∀ i, done' i → i ≠ j → done i) : s.Regularized act sigma done' l (Function.update d j x) := by
  refine ⟨fun i hi hdone' hact => ?_, fun i hi hact => ?_, h.entry_eq_zero⟩
  · by_cases hij : i = j
    · rw [hij, Function.update_self]
      exact hx
    · rw [Function.update_of_ne hij]
      exact h.le_pivot i hi (hdone i hdone' hij) hact
  · have hij : i ≠ j := fun hij => by rw [hij, hj] at hact; cases hact
    rw [Function.update_of_ne hij]
    exact h.pivot_eq_one i hi hact

/-- A row that becomes inactive gets a unit pivot and a column of zeros. -/
theorem deactivate (h : s.Regularized act sigma (fun _ => True) l d) (k : ℕ) :
    s.Regularized (Function.update act k false) sigma (fun _ => True) (fun i c => if c = k then 0 else l i c)
      (Function.update d k 1) := by
  have hother : ∀ i, Function.update act k false i = true → i ≠ k ∧ act i = true := fun i hi => by
    have hne : i ≠ k := fun hik => by rw [hik, Function.update_self] at hi; cases hi
    rw [Function.update_of_ne hne] at hi
    exact ⟨hne, hi⟩
  refine ⟨fun i hi _ hact => ?_, fun i hi hact => ?_, fun i c hhas hact hc => ?_⟩
  · rw [Function.update_of_ne (hother i hact).1]
    exact h.le_pivot i hi trivial (hother i hact).2
  · by_cases hik : i = k
    · rw [hik, Function.update_self]
    · rw [Function.update_of_ne hik] at hact ⊢
      exact h.pivot_eq_one i hi hact
  · split_ifs with hck
    · rfl
    · rw [Function.update_of_ne hck] at hc
      exact h.entry_eq_zero i c hhas (hother i hact).2 hc

/-- A row that becomes active starts with zeros in the columns before it, and its pivot is open. -/
theorem activate (h : s.Regularized act sigma (fun _ => True) l d) (k : ℕ) :
    s.Regularized (Function.update act k true) sigma (· ≠ k) (fun i c => if i = k then 0 else l i c) d := by
  have hother : ∀ i, Function.update act k true i = false → i ≠ k ∧ act i = false := fun i hi => by
    have hne : i ≠ k := fun hik => by rw [hik, Function.update_self] at hi; cases hi
    rw [Function.update_of_ne hne] at hi
    exact ⟨hne, hi⟩
  refine ⟨fun i hi hne hact => ?_, fun i hi hact => h.pivot_eq_one i hi (hother i hact).2, fun i c hhas hact hc => ?_⟩
  · rw [Function.update_of_ne hne] at hact
    exact h.le_pivot i hi trivial hact
  · split_ifs with hik
    · rfl
    · rw [Function.update_of_ne hik] at hact
      exact h.entry_eq_zero i c hhas hact (hother c hc).2

end Regularized

/-- A factor between two operations, with the active rows `act` and the regularization `sigma`. -/
def AtRest (s : Fill) (act : ℕ → Bool) (sigma : K) (f : LdlFactor K) : Prop :=
  ∃ l d, f = s.factor act l d sigma (fun _ => 0) (fun _ => 0) ∧ s.Regularized act sigma (fun _ => True) l d

end Fill

namespace LdlFactor

variable {s : Fill} {a aT : SparseMatrix K} {act : ℕ → Bool} {l : ℕ → ℕ → K} {d w : ℕ → K} {sigma alpha : K}
  {floor : K → K} {j k : ℕ}

section Product

/-- The product of a vector in row `j` and the active rows of its column leaves the work vectors zero: what remains of
the vector at each column of the path lies in the active rows of the column. -/
theorem rankOneFrom_yields (hfloor : ∀ x, sigma ≤ floor x) (steps flops : ℕ) (hsteps : s.size ≤ j + steps)
    (hj : j < s.size) (hact : act j = true) (h : s.Regularized act sigma (fun _ => True) l d)
    (hw : Supported w fun i => i = j ∨ s.Live act j i) :
    Yields (Blocked sigma) (fun r => s.AtRest act sigma r.1)
      (rankOneFrom floor steps (s.factor act l d sigma w fun _ => 0) j alpha flops) := by
  induction steps generalizing j alpha l d w flops with
  | zero => omega
  | succ steps ih =>
      have hclear : Supported (Function.update w j 0) (s.Live act j) :=
        (hw.clear j).mono fun i hi => hi.1.resolve_left hi.2
      rw [rankOneFrom_eq floor steps flops hj]
      refine Yields.bind (P := fun r => ∃ l d w, r.1 = s.factor act l d sigma w (fun _ => 0) ∧
        s.Regularized act sigma (fun _ => True) l d ∧ Supported w (s.Live act j)) ?_ ?_
      · split
        · refine (Scalar.quotient_yields _ _ fun hdiv => ⟨_, hfloor _, hdiv⟩).bind fun gamma _ => ?_
          refine (Scalar.quotient_yields _ _ fun hdiv => ⟨_, hfloor _, hdiv⟩).bind fun rest _ => ?_
          refine ⟨_, _, _, rfl, (h.set_column hact fun i c => _).set_pivot hact (hfloor _) fun _ _ _ => trivial,
            fun i hi => ?_⟩
          exact (if_neg fun hmem => hi (Fill.mem_filter_column.1 hmem)).trans (hclear i hi)
        · exact ⟨l, d, _, rfl, h, hclear⟩
      · -- the path goes on in the first active row of the column
        rintro ⟨f, rest, flops⟩ ⟨l, d, w, rfl, h, hw⟩
        cases hrows : (s.column j).filter act with
        | nil =>
            rw [hw.eq_zero (Fill.not_live_of_nil hrows)]
            exact ⟨l, d, rfl, h⟩
        | cons next rows =>
            obtain ⟨hlive, hfirst⟩ := Fill.live_of_first hrows
            have hlt := s.lt_of_has hlive.1
            exact ih flops (by omega) hlt.2 hlive.2 h (hw.mono hfirst)

theorem rankOne_yields (hfloor : ∀ x, sigma ≤ floor x) (hj : j < s.size) (hact : act j = true)
    (h : s.Regularized act sigma (fun _ => True) l d) (hw : Supported w fun i => i = j ∨ s.Live act j i) :
    Yields (Blocked sigma) (fun r => s.AtRest act sigma r.1)
      (rankOne floor (s.factor act l d sigma w fun _ => 0) j alpha) := by
  rw [rankOne, Fill.size_factor]
  exact rankOneFrom_yields hfloor _ 0 (by omega) hj hact h hw

/-- The active part of a column of the matrix in `work`: its first row has the others in its column. -/
theorem scatterColumn_yields {E : Prop} (ha : a.Formatted) (hs : s.Covers a) (hj : j < a.ncols) :
    Yields E
      (fun r => ∃ w, r = (s.factor act l d sigma w fun _ => 0, (((a.columnEntries j).map Prod.fst).filter act).head?) ∧
        Supported w fun i => i ∈ ((a.columnEntries j).map Prod.fst).filter act)
      ((s.factor act l d sigma (fun _ => 0) fun _ => 0).scatterColumn a j) := by
  obtain ⟨c, hc, hlist⟩ := ha.toFits.column_ok hj
  rw [scatterColumn, hc, ok_bind, ← Array.foldlM_toList, hlist]
  refine (Yields.foldlM (fun done r =>
    WorkIn s.size (fun i => i ∈ ((a.columnEntries j).map Prod.fst).filter act) r.1 ∧
      r.2 = ((done.map Prod.fst).filter act).head?) ⟨⟨_, rfl, .zero⟩, rfl⟩ ?_).bind ?_
  · rintro done ⟨i, v⟩ rest ⟨work, first⟩ hdone ⟨hwork, rfl⟩
    have hmem : (i, v) ∈ a.columnEntries j := by rw [hdone]; simp
    have hi : i < s.size := hs.size_eq ▸ ha.row_lt j _ hmem
    refine Yields.of_ok (fetch_table hi) ?_
    rw [List.map_append, List.filter_append]
    by_cases hact : act i = true
    · rw [if_neg (by rw [hact]; decide)]
      refine (hwork.store_yields hi (List.mem_filter.2 ⟨List.mem_map_of_mem hmem, hact⟩) v).bind fun y hy => ?_
      refine ⟨hy, ?_⟩
      rw [List.head?_append, List.map_cons, List.filter_cons, if_pos hact]
      rfl
    · rw [if_pos (by simp [hact])]
      refine ⟨hwork, ?_⟩
      rw [List.map_cons, List.filter_cons, if_neg hact]
      simp
  · rintro ⟨_, _⟩ ⟨⟨w, rfl, hw⟩, rfl⟩
    exact ⟨w, rfl, hw⟩

theorem addColumn_yields (ha : a.Formatted) (hs : s.Covers a) (hfloor : ∀ x, sigma ≤ floor x) (hj : j < a.ncols)
    {f : LdlFactor K} (h : s.AtRest act sigma f) :
    Yields (Blocked sigma) (fun r => s.AtRest act sigma r.1) (f.addColumn floor a j alpha) := by
  obtain ⟨l, d, rfl, h⟩ := h
  refine (scatterColumn_yields ha hs hj).bind ?_
  rintro _ ⟨w, rfl, hw⟩
  cases hrows : ((a.columnEntries j).map Prod.fst).filter act with
  | nil =>
      rw [hw.eq_zero fun i => by rw [hrows]; exact List.not_mem_nil]
      exact ⟨l, d, rfl, h⟩
  | cons start rows =>
      obtain ⟨hlt, hact, hothers⟩ := hs.live_of_first ha hrows
      exact rankOne_yields hfloor hlt hact h (hw.mono fun i hi => hothers i (hrows ▸ hi))

theorem addLiveColumn_yields (hfloor : ∀ x, sigma ≤ floor x) (hk : k < s.size) {f : LdlFactor K}
    (h : s.AtRest act sigma f) :
    Yields (Blocked sigma) (fun r => s.AtRest act sigma r.1) (f.addLiveColumn floor k alpha) := by
  obtain ⟨l, d, rfl, h⟩ := h
  rw [addLiveColumn_eq floor hk]
  cases hrows : (s.column k).filter act with
  | nil => exact ⟨l, d, rfl, h⟩
  | cons first rows =>
      obtain ⟨hfirst, hothers⟩ := Fill.live_of_first hrows
      refine rankOne_yields (l := l) (d := d) hfloor (s.lt_of_has hfirst.1).2 hfirst.2 h fun i hi => ?_
      exact if_neg fun hmem => hi (hothers i (Fill.mem_filter_column.1 (hrows ▸ hmem)))

end Product

section Gather

variable {free : Array Bool} {S : ℕ → Prop} {n : ℕ}

/-- A row that shares a column of the matrix with row `k` is in its row or its column of the pattern. -/
theorem has_of_shared (ha : a.Formatted) (hT : SparseMatrix.IsTranspose a aT) (hs : s.Covers a) {e : ℕ × K} {i : ℕ}
    (he : e ∈ aT.columnEntries k) (hi : i ∈ (a.columnEntries e.1).map Prod.fst) :
    i = k ∨ s.has k i = true ∨ s.has i k = true := by
  have hk : k ∈ (a.columnEntries e.1).map Prod.fst := List.mem_map.2 ⟨(k, e.2), (hT.mem_iff ha).1 he, rfl⟩
  rcases Nat.lt_trichotomy i k with hik | hik | hik
  · exact Or.inr (Or.inl (hs.coupled i k e.1 hi hk hik))
  · exact Or.inl hik
  · exact Or.inr (Or.inr (hs.coupled k i e.1 hk hi hik))

/-- A loop over the entries of row `k` of the matrix whose rounds keep to the rows in `S`, if it is looked up first
whether the column is free. -/
theorem gather_yields {E : Prop} (hT : SparseMatrix.IsTranspose a aT) (hfree : a.ncols ≤ free.size)
    {f : Array K × ℕ → ℕ × K → Checked (Array K × ℕ)}
    (hf : ∀ e ∈ aT.columnEntries k, ∀ r, WorkIn n S r.1 → Yields E (fun r => WorkIn n S r.1) (f r e)) :
    Yields E (fun r => WorkIn n S r.1)
      ((aT.columnEntries k).foldlM (fun r e => do if !(← fetch free e.1) then return r else f r e)
        (table n fun _ => 0, 0)) := by
  refine Yields.foldlM (fun _ (r : Array K × ℕ) => WorkIn n S r.1) ⟨_, rfl, .zero⟩ fun done e rest r hdone hr => ?_
  have he : e ∈ aT.columnEntries k := by rw [hdone]; simp
  refine Yields.of_ok (fetch_of_lt ((hT.col_lt k e he).trans_le hfree)) ?_
  split
  · exact hr
  · exact hf e he r hr

theorem gatherRow_yields {E : Prop} (ha : a.Formatted) (hT : SparseMatrix.IsTranspose a aT) (hs : s.Covers a)
    (hfree : a.ncols ≤ free.size) (hk : k < s.size) :
    Yields E (fun r => WorkIn s.size (fun i => act i = true ∧ (i = k ∨ s.has k i = true)) r.1)
      (gatherRow a aT free (table s.size act) k (table s.size fun _ => 0)) := by
  obtain ⟨c, hc, hlist⟩ := hT.fits.column_ok (j := k) (by rw [hT.ncols, ← hs.size_eq]; exact hk)
  rw [gatherRow, hc, ok_bind, ← Array.foldlM_toList, hlist]
  refine gather_yields hT hfree fun e he r hr => ?_
  obtain ⟨c, hc, hlist⟩ := ha.toFits.column_ok (hT.col_lt k e he)
  rw [hc, ok_bind, hlist]
  refine Yields.foldlM (fun _ (r : Array K × ℕ) =>
    WorkIn s.size (fun i => act i = true ∧ (i = k ∨ s.has k i = true)) r.1) hr ?_
  rintro done ⟨i, v⟩ rest ⟨y, flops⟩ hdone hy
  have hmem : (i, v) ∈ (a.columnEntries e.1).takeWhile (·.1 ≤ k) := by rw [hdone]; simp
  have hle : i ≤ k := by simpa using List.mem_takeWhile_imp hmem
  have hentry := (List.takeWhile_sublist _).mem hmem
  have hi : i < s.size := hs.size_eq ▸ ha.row_lt e.1 _ hentry
  have hrow : i = k ∨ s.has k i = true := (has_of_shared ha hT hs he (List.mem_map_of_mem hentry)).imp_right fun h =>
    h.resolve_right fun h => absurd (s.lt_of_has h).1 (by omega)
  refine Yields.of_ok (fetch_table hi) ?_
  by_cases hact : act i = true
  · rw [if_neg (by rw [hact]; decide)]
    exact (hy.adjust_yields hi ⟨hact, hrow⟩ _).bind fun _ h => h
  · rw [if_pos (by simp [hact])]
    exact hy

theorem gatherFullRow_yields {E : Prop} (ha : a.Formatted) (hT : SparseMatrix.IsTranspose a aT) (hs : s.Covers a)
    (hfree : a.ncols ≤ free.size) (hk : k < s.size) :
    Yields E (fun r => WorkIn s.size (fun i => act i = true ∧ (i = k ∨ s.has k i = true ∨ s.has i k = true)) r.1)
      (gatherFullRow a aT free (table s.size act) k (table s.size fun _ => 0)) := by
  obtain ⟨c, hc, hlist⟩ := hT.fits.column_ok (j := k) (by rw [hT.ncols, ← hs.size_eq]; exact hk)
  rw [gatherFullRow, hc, ok_bind, ← Array.foldlM_toList, hlist]
  refine gather_yields hT hfree fun e he r hr => ?_
  obtain ⟨c, hc, hlist⟩ := ha.toFits.column_ok (hT.col_lt k e he)
  rw [hc, ok_bind, ← Array.foldlM_toList, hlist]
  refine (Yields.foldlM (fun _ => WorkIn s.size fun i => act i = true ∧ (i = k ∨ s.has k i = true ∨ s.has i k = true))
    hr ?_).bind fun _ h => h
  rintro done ⟨i, v⟩ rest y hdone hy
  have hentry : (i, v) ∈ a.columnEntries e.1 := by rw [hdone]; simp
  have hi : i < s.size := hs.size_eq ▸ ha.row_lt e.1 _ hentry
  refine Yields.of_ok (fetch_table hi) ?_
  by_cases hact : act i = true
  · rw [if_pos hact]
    exact hy.adjust_yields hi ⟨hact, has_of_shared ha hT hs he (List.mem_map_of_mem hentry)⟩ _
  · rw [if_neg hact]
    exact hy

end Gather

end LdlFactor

end PolyProjection
