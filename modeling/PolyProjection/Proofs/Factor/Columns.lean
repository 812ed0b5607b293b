import Mathlib
import PolyProjection.Factor.Update
import PolyProjection.Proofs.Exact
import PolyProjection.Proofs.Sorted
import PolyProjection.Proofs.Table

/-! The columns of a factor by their rows. A column is told by the rows of its pattern, the active ones among
them and their values; the operations on a column change the active rows and the values. -/

namespace PolyProjection

set_option linter.unusedSectionVars false

variable {K : Type} [Scalar K]

/-- Put into an ascending list of the rows with a property, a row takes its place in the order. -/
theorem filter_insert_ascending {rows : List ℕ} (hrows : rows.Pairwise (· < ·)) {p : ℕ → Bool} {k : ℕ}
    (hk : k ∈ rows) :
    (rows.filter p).filter (fun i => decide (i < k)) ++ k :: (rows.filter p).filter (fun i => decide (k < i)) =
      rows.filter (Function.update p k true) := by
  refine eq_of_ascending ?_ (hrows.filter _) fun i => ?_
  · have hasc := (hrows.filter p)
    rw [List.pairwise_append, List.pairwise_cons]
    refine ⟨hasc.filter _, ⟨fun i hi => ?_, hasc.filter _⟩, fun i hi j hj => ?_⟩
    · simpa using (List.mem_filter.1 hi).2
    · have hik : i < k := by simpa using (List.mem_filter.1 hi).2
      rcases List.mem_cons.1 hj with rfl | hj
      · exact hik
      · exact hik.trans (by simpa using (List.mem_filter.1 hj).2)
  · simp only [List.mem_append, List.mem_cons, List.mem_filter, decide_eq_true_eq]
    by_cases hik : i = k
    · rw [hik, Function.update_self]
      simp [hk]
    · rw [Function.update_of_ne hik]
      have hlt : i < k ∨ k < i := by omega
      tauto

namespace FactorColumn

/-- The column with the pattern `rows` whose active rows have the values `v`. -/
def ofRows (rows : List ℕ) (act : ℕ → Bool) (v : ℕ → K) : FactorColumn K :=
  ⟨(rows.filter act).map fun i => (i, v i), rows.filter fun i => !act i⟩

variable {rows : List ℕ} {act act' : ℕ → Bool} {v v' : ℕ → K} {k : ℕ}

@[simp] theorem liveRows_ofRows : (ofRows rows act v).liveRows = rows.filter act := by
  rw [liveRows, ofRows, List.map_map]
  exact List.map_id _

theorem ofRows_congr (hact : ∀ i ∈ rows, act i = act' i) (hv : ∀ i ∈ rows, act i = true → v i = v' i) :
    ofRows rows act v = ofRows rows act' v' := by
  have hlive : rows.filter act = rows.filter act' := List.filter_congr hact
  have hdead : (rows.filter fun i => !act i) = rows.filter fun i => !act' i :=
    List.filter_congr fun i hi => by rw [hact i hi]
  rw [ofRows, ofRows, hdead, ← hlive]
  congr 1
  refine List.map_congr_left fun i hi => ?_
  rw [hv i (List.mem_of_mem_filter hi) (List.of_mem_filter hi)]

theorem mem_live_ofRows (hk : k ∈ rows) (hact : act k = true) :
    (ofRows rows act v).liveRows.contains k = true := by
  rw [liveRows_ofRows, List.contains_iff_mem, List.mem_filter]
  exact ⟨hk, hact⟩

theorem setValue_ofRows (hk : k ∈ rows) (hact : act k = true) (x : K) :
    (ofRows rows act v).setValue k x = .ok (ofRows rows act (Function.update v k x)) := by
  rw [setValue, require_of_true (mem_live_ofRows hk hact), ok_bind]
  refine congrArg Except.ok ?_
  simp only [ofRows, List.map_map, FactorColumn.mk.injEq, and_true]
  refine List.map_congr_left fun i _ => ?_
  by_cases hi : i = k
  · simp [hi]
  · simp [hi]

theorem kill_ofRows (hrows : rows.Pairwise (· < ·)) (hk : k ∈ rows) (hact : act k = true) :
    (ofRows rows act v).kill k = .ok (ofRows rows (Function.update act k false) v) := by
  rw [kill, require_of_true (mem_live_ofRows hk hact), ok_bind]
  refine congrArg Except.ok ?_
  simp only [ofRows, FactorColumn.mk.injEq]
  constructor
  · rw [List.filter_map, List.filter_filter]
    congr 1
    refine List.filter_congr fun i _ => ?_
    by_cases hi : i = k
    · simp [hi]
    · simp [hi]
  · rw [filter_insert_ascending hrows hk]
    refine List.filter_congr fun i _ => ?_
    by_cases hi : i = k
    · simp [hi]
    · simp [Function.update_of_ne hi]

theorem revive_ofRows (hrows : rows.Pairwise (· < ·)) (hk : k ∈ rows) (hact : act k = false) :
    (ofRows rows act v).revive k = .ok (ofRows rows (Function.update act k true) (Function.update v k 0)) := by
  have hdead : (ofRows rows act v).dead.contains k = true := by
    rw [List.contains_iff_mem, ofRows, List.mem_filter]
    exact ⟨hk, by rw [hact]; rfl⟩
  rw [revive, require_of_true hdead, ok_bind]
  refine congrArg Except.ok ?_
  have hvalue : ∀ p : ℕ → Bool, p k = false → ((rows.filter act).filter p).map (fun i => (i, v i)) =
      ((rows.filter act).filter p).map fun i => (i, Function.update v k 0 i) := by
    intro p hp
    refine List.map_congr_left fun i hi => ?_
    have hne : i ≠ k := by
      rintro rfl
      rw [List.of_mem_filter hi] at hp
      cases hp
    rw [Function.update_of_ne hne]
  simp only [ofRows, FactorColumn.mk.injEq]
  constructor
  · rw [← filter_insert_ascending hrows hk, List.map_append, List.map_cons, Function.update_self,
      List.filter_map, List.filter_map]
    simp only [Function.comp_def]
    rw [hvalue (fun i => decide (i < k)) (by simp), hvalue (fun i => decide (k < i)) (by simp)]
  · rw [List.filter_filter]
    refine List.filter_congr fun i _ => ?_
    by_cases hi : i = k
    · simp [hi]
    · simp [hi]

/-- Sorting the rows of a column again gives the column over the rows that are active now; rows that were
inactive get the value zero. -/
theorem splitColumn_ofRows {n : ℕ} (hrows : rows.Pairwise (· < ·)) (hn : ∀ i ∈ rows, i < n) :
    LdlFactor.splitColumn (table n act') (ofRows rows act v) =
      .ok (ofRows rows act' fun i => if act i then v i else 0) := by
  set value : ℕ → K := fun i => if act i then v i else 0 with hvalue
  have hlive : (ofRows rows act v).live = (rows.filter act).map fun i => (i, value i) := by
    refine List.map_congr_left fun i hi => ?_
    rw [hvalue]
    simp only [List.of_mem_filter hi, if_true]
  have hdead : ((ofRows rows act v).dead.map fun r => (r, (0 : K))) =
      (rows.filter fun i => !act i).map fun i => (i, value i) := by
    refine List.map_congr_left fun i hi => ?_
    have hi := List.of_mem_filter hi
    rw [Bool.not_eq_true'] at hi
    rw [hvalue]
    simp [hi]
  have hsorted : (((ofRows rows act v).live ++ (ofRows rows act v).dead.map fun r => (r, (0 : K))).mergeSort
      fun a b => decide (a.1 ≤ b.1)) = rows.map fun i => (i, value i) := by
    rw [hlive, hdead, ← List.map_append]
    have hperm := (List.mergeSort_perm ((rows.filter act ++ rows.filter fun i => !act i).map fun i => (i, value i))
      fun a b => decide (a.1 ≤ b.1)).trans ((List.filter_append_perm act rows).map fun i => (i, value i))
    refine @List.Perm.eq_of_pairwise _ (fun a b => a.1 ≤ b.1) _ _ (fun a b ha hb hab hba => ?_) ?_ ?_ hperm
    · obtain ⟨i, -, rfl⟩ := List.mem_map.1 (hperm.mem_iff.1 ha)
      obtain ⟨j, -, rfl⟩ := List.mem_map.1 hb
      rw [show i = j from le_antisymm hab hba]
    · refine (List.pairwise_mergeSort (fun a b c => ?_) (fun a b => ?_) _).imp fun h => by simpa using h
      · simpa using le_trans
      · simpa using le_total a.1 b.1
    · exact List.pairwise_map.2 (hrows.imp fun h => le_of_lt h)
  rw [LdlFactor.splitColumn, hsorted]
  rw [filterM_of_forall (p := fun e => act' e.1) fun e he => by
      obtain ⟨i, hi, rfl⟩ := List.mem_map.1 he
      exact fetch_table (hn i hi), ok_bind,
    filterM_of_forall (p := fun i => !act' i) fun i hi => by
      rw [List.map_map] at hi
      obtain ⟨r, hr, rfl⟩ := List.mem_map.1 hi
      rw [Function.comp_apply, fetch_table (hn r hr)]
      rfl, ok_bind]
  refine congrArg Except.ok ?_
  rw [ofRows, List.filter_map, List.map_map]
  have hid : rows.map (Prod.fst ∘ fun i => (i, value i)) = rows := List.map_id _
  rw [hid]
  rfl

end FactorColumn

/-- A pattern below the diagonal that contains its own fill: two rows with an entry in one column have an entry
in common, the later one in the column of the earlier one. -/
structure Fill where
  size : ℕ
  /-- Row `i` has an entry in column `j`. -/
  has : ℕ → ℕ → Bool
  lt_of_has : ∀ {i j}, has i j = true → j < i ∧ i < size
  closed : ∀ {i j k}, has i j = true → has k j = true → i < k → has k i = true

namespace Fill

variable (s : Fill)

/-- The rows with an entry in column `j`. -/
def column (j : ℕ) : List ℕ :=
  (List.range s.size).filter fun i => s.has i j

/-- The columns with an entry in row `i`. -/
def row (i : ℕ) : List ℕ :=
  (List.range i).filter fun j => s.has i j

/-- The factor with this pattern, the active rows `act`, the entries `l` and `d`, and the work vectors `w`
and `w2`. -/
def factor (act : ℕ → Bool) (l : ℕ → ℕ → K) (d : ℕ → K) (sigma : K) (w w2 : ℕ → K) : LdlFactor K where
  columns := table s.size fun j => .ofRows (s.column j) act fun i => l i j
  diag := table s.size d
  rowPattern := table s.size s.row
  active := table s.size act
  sigma := sigma
  work := table s.size w
  work2 := table s.size w2

variable {s} {i j : ℕ}

theorem mem_column : i ∈ s.column j ↔ s.has i j = true := by
  rw [column, List.mem_filter, List.mem_range]
  exact ⟨fun h => h.2, fun h => ⟨(s.lt_of_has h).2, h⟩⟩

theorem mem_row : j ∈ s.row i ↔ s.has i j = true := by
  rw [row, List.mem_filter, List.mem_range]
  exact ⟨fun h => h.2, fun h => ⟨(s.lt_of_has h).1, h⟩⟩

theorem column_ascending (s : Fill) (j : ℕ) : (s.column j).Pairwise (· < ·) :=
  filter_range_ascending _ _

theorem row_ascending (s : Fill) (i : ℕ) : (s.row i).Pairwise (· < ·) :=
  filter_range_ascending _ _

theorem column_lt : ∀ i ∈ s.column j, j < i ∧ i < s.size :=
  fun _ hi => s.lt_of_has (mem_column.1 hi)

variable {act : ℕ → Bool} {l l' : ℕ → ℕ → K} {d d' : ℕ → K} {sigma : K} {w w' w2 w2' : ℕ → K}

/-- Row `i` is an active row of column `j`. -/
def Live (s : Fill) (act : ℕ → Bool) (j i : ℕ) : Prop :=
  s.has i j = true ∧ act i = true

theorem mem_filter_column : i ∈ (s.column j).filter act ↔ s.Live act j i := by
  rw [List.mem_filter, mem_column, Live]

/-- The first active row of a column has the other ones in its column. -/
theorem live_of_first {first : ℕ} {rows : List ℕ} (hrows : (s.column j).filter act = first :: rows) :
    s.Live act j first ∧ ∀ i, s.Live act j i → i = first ∨ s.Live act first i := by
  have hfirst : s.Live act j first := mem_filter_column.1 (hrows ▸ List.mem_cons_self)
  have hascending : (first :: rows).Pairwise (· < ·) := hrows ▸ (s.column_ascending j).filter act
  refine ⟨hfirst, fun i hi => ?_⟩
  have hmem : i ∈ first :: rows := hrows ▸ mem_filter_column.2 hi
  rcases List.mem_cons.1 hmem with rfl | hmem
  · exact Or.inl rfl
  · exact Or.inr ⟨s.closed hfirst.1 hi.1 (List.rel_of_pairwise_cons hascending hmem), hi.2⟩

theorem not_live_of_nil (hrows : (s.column j).filter act = []) (i : ℕ) : ¬ s.Live act j i := by
  rw [← mem_filter_column, hrows]
  exact List.not_mem_nil

theorem lt_column_filter (s : Fill) (act : ℕ → Bool) : ∀ j, ∀ i ∈ (s.column j).filter act, j < i :=
  fun _ i hi => (column_lt i (List.mem_of_mem_filter hi)).1

@[simp] theorem size_factor : (s.factor act l d sigma w w2).size = s.size :=
  size_table _ _

@[simp] theorem diag_factor : (s.factor act l d sigma w w2).diag = table s.size d := rfl

@[simp] theorem rowPattern_factor : (s.factor act l d sigma w w2).rowPattern = table s.size s.row := rfl

@[simp] theorem active_factor : (s.factor act l d sigma w w2).active = table s.size act := rfl

@[simp] theorem sigma_factor : (s.factor act l d sigma w w2).sigma = sigma := rfl

@[simp] theorem work_factor : (s.factor act l d sigma w w2).work = table s.size w := rfl

@[simp] theorem work2_factor : (s.factor act l d sigma w w2).work2 = table s.size w2 := rfl

theorem changeColumn_factor {change : FactorColumn K → Checked (FactorColumn K)} {v : ℕ → K} (hj : j < s.size)
    (hchange : change (.ofRows (s.column j) act fun i => l i j) = .ok (.ofRows (s.column j) act v)) :
    (s.factor act l d sigma w w2).changeColumn j change =
      .ok (s.factor act (fun i c => if c = j then v i else l i c) d sigma w w2) := by
  rw [LdlFactor.changeColumn]
  simp only [factor, fetch_table hj, ok_bind, hchange, store_table _ hj]
  refine congrArg Except.ok ?_
  simp only [LdlFactor.mk.injEq, and_self, and_true]
  refine table_congr fun c _ => ?_
  by_cases hc : c = j
  · rw [hc, Function.update_self]
    simp only [if_true]
  · rw [Function.update_of_ne hc]
    simp only [if_neg hc]

/-- One entry of the factor is changed. -/
theorem table_update_entry (n j k : ℕ) (x : K) :
    table n (Function.update (fun c => FactorColumn.ofRows (s.column c) act fun i => l i c) j
        (FactorColumn.ofRows (s.column j) act (Function.update (fun i => l i j) k x))) =
      table n fun c => FactorColumn.ofRows (s.column c) act fun i => if i = k ∧ c = j then x else l i c := by
  refine table_congr fun c _ => ?_
  by_cases hc : c = j
  · rw [hc, Function.update_self]
    refine FactorColumn.ofRows_congr (fun _ _ => rfl) fun i _ _ => ?_
    by_cases hi : i = k
    · rw [hi, Function.update_self, if_pos ⟨rfl, rfl⟩]
    · rw [Function.update_of_ne hi, if_neg fun h => hi h.1]
  · rw [Function.update_of_ne hc]
    simp only [hc, and_false, if_false]

/-- The active rows of one column get new values. -/
theorem table_update_column (n j : ℕ) (v : ℕ → ℕ → K) :
    table n (Function.update (fun c => FactorColumn.ofRows (s.column c) act fun i => l i c) j
        ⟨((s.column j).filter act).map fun i => (i, v i j),
          (FactorColumn.ofRows (s.column j) act fun i => l i j).dead⟩) =
      table n fun c => FactorColumn.ofRows (s.column c) act fun i => if c = j then v i c else l i c := by
  refine table_congr fun c _ => ?_
  by_cases hc : c = j
  · rw [hc, Function.update_self]
    simp only [if_true]
    rfl
  · rw [Function.update_of_ne hc]
    simp only [if_neg hc]

/-- The factor looks at the entries in active rows of the pattern only. -/
theorem factor_congr (hl : ∀ i j, s.has i j = true → act i = true → l i j = l' i j)
    (hd : ∀ j < s.size, d j = d' j) (hw : ∀ i < s.size, w i = w' i) (hw2 : ∀ i < s.size, w2 i = w2' i) :
    s.factor act l d sigma w w2 = s.factor act l' d' sigma w' w2' := by
  rw [factor, factor, table_congr hd, table_congr hw, table_congr hw2,
    table_congr fun j _ => FactorColumn.ofRows_congr (fun i _ => rfl) fun i hi hact =>
      hl i j (mem_column.1 hi) hact]

end Fill

end PolyProjection
