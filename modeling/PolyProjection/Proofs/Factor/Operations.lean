import Mathlib
import PolyProjection.Proofs.Factor.Columns

/-! What the parts of the operations do to a factor given by its pattern, its active rows and its entries. Each part
answers with a factor of the same form; scalars may round, and all that is asked of them is that the pivots can be
divided by. -/

namespace PolyProjection

set_option linter.unusedSectionVars false

variable {K : Type} [Scalar K]

theorem Scalar.quotient_ok {a b : K} (h : isDivisor b = true) : quotient a b = .ok (a / b) := by
  rw [quotient, require_of_true h]
  rfl

namespace LdlFactor

variable {s : Fill} {act act' : ℕ → Bool} {sigma alpha : K} {l l' : ℕ → ℕ → K} {d w w2 : ℕ → K} {n j k : ℕ}

section Columns

theorem sweepColumn_table (p gamma : K) {rows : List ℕ} {v w : ℕ → K} (hrows : rows.Nodup)
    (hn : ∀ i ∈ rows, i < n) :
    sweepColumn p gamma (rows.map fun i => (i, v i)) (table n w) =
      .ok (rows.map fun i => (i, v i + gamma * (w i - p * v i)),
        table n fun i => if i ∈ rows then w i - p * v i else w i) := by
  induction rows generalizing w with
  | nil => simp [sweepColumn, pure, Except.pure]
  | cons i rows ih =>
      rw [List.nodup_cons] at hrows
      have hi := hn i List.mem_cons_self
      rw [List.map_cons, sweepColumn, fetch_table hi, ok_bind]
      dsimp only
      rw [store_table _ hi, ok_bind, ih hrows.2 fun k hk => hn k (List.mem_cons_of_mem i hk), ok_bind]
      refine congrArg Except.ok (Prod.ext ?_ (table_congr fun k _ => ?_))
      · rw [List.map_cons]
        refine congrArg₂ _ rfl (List.map_congr_left fun k hk => ?_)
        rw [Function.update_of_ne (ne_of_mem_of_not_mem hk hrows.1)]
      · by_cases hk : k = i
        · rw [hk, if_neg hrows.1, if_pos List.mem_cons_self, Function.update_self]
        · rw [Function.update_of_ne hk]
          simp [List.mem_cons, hk]

theorem foldlM_store_table {rows : List ℕ} {v : ℕ → K} (hn : ∀ i ∈ rows, i < n) :
    (rows.map fun i => (i, v i)).foldlM (fun w e => store w e.1 e.2) (table n w) =
      .ok (table n fun i => if i ∈ rows then v i else w i) := by
  induction rows generalizing w with
  | nil => simp [pure, Except.pure]
  | cons i rows ih =>
      rw [List.map_cons, List.foldlM_cons, store_table _ (hn i List.mem_cons_self), ok_bind,
        ih fun k hk => hn k (List.mem_cons_of_mem i hk)]
      refine congrArg Except.ok (table_congr fun k _ => ?_)
      by_cases hk : k = i
      · rw [hk, Function.update_self, ite_self, if_pos List.mem_cons_self]
      · simp only [List.mem_cons, hk, false_or, Function.update_of_ne hk]

theorem fillColumn_table {rows : List ℕ} {v : ℕ → K} {p : K} (hrows : rows.Nodup) (hn : ∀ i ∈ rows, i < n)
    (hp : Scalar.isDivisor p = true) : fillColumn p (rows.map fun i => (i, v i)) (table n w) (table n w2) =
      .ok (rows.map fun i => (i, (w i - w2 i) / p), table n fun i => if i ∈ rows then 0 else w i,
        table n fun i => if i ∈ rows then 0 else w2 i) := by
  induction rows generalizing w w2 with
  | nil => simp [fillColumn, pure, Except.pure]
  | cons e rows ih =>
      rw [List.nodup_cons] at hrows
      have he := hn e List.mem_cons_self
      rw [List.map_cons, fillColumn, fetch_table he, ok_bind, fetch_table he, ok_bind, Scalar.quotient_ok hp,
        ok_bind]
      dsimp only
      rw [store_table _ he, ok_bind, store_table _ he, ok_bind, ih hrows.2 fun i hi => hn i (List.mem_cons_of_mem e hi),
        ok_bind, pure_eq_ok_iff]
      have hother : ∀ (w : ℕ → K) (i : ℕ), (if i ∈ rows then (0 : K) else Function.update w e 0 i) =
          if i ∈ e :: rows then 0 else w i := fun w i => by
        by_cases hi : i = e
        · rw [hi, Function.update_self, ite_self, if_pos List.mem_cons_self]
        · simp only [List.mem_cons, hi, false_or, Function.update_of_ne hi]
      refine Prod.ext ?_ (Prod.ext (table_congr fun i _ => hother w i) (table_congr fun i _ => hother w2 i))
      rw [List.map_cons]
      refine congrArg₂ _ rfl (List.map_congr_left fun i hi => ?_)
      have hne := ne_of_mem_of_not_mem hi hrows.1
      rw [Function.update_of_ne hne, Function.update_of_ne hne]

variable (w w2) in
theorem spread_table {rows : List ℕ} {v : ℕ → K} (hrows : rows.Nodup) (hn : ∀ i ∈ rows, i < n) (z : K) :
    (rows.map fun i => (i, v i)).foldlM (fun (w, w2) e => do
      if e.1 < k then return (← adjust w e.1 (· - e.2 * z), w2)
      else if k < e.1 then return (w, ← adjust w2 e.1 (· + e.2 * z))
      else return (w, w2)) (table n w, table n w2) =
      .ok (table n fun i => if i ∈ rows ∧ i < k then w i - v i * z else w i,
        table n fun i => if i ∈ rows ∧ k < i then w2 i + v i * z else w2 i) := by
  induction rows generalizing w w2 with
  | nil => simp [pure, Except.pure]
  | cons e rows ih =>
      rw [List.nodup_cons] at hrows
      have he := hn e List.mem_cons_self
      have hn' : ∀ i ∈ rows, i < n := fun i hi => hn i (List.mem_cons_of_mem e hi)
      rw [List.map_cons, List.foldlM_cons]
      dsimp only
      rcases Nat.lt_trichotomy e k with hek | rfl | hek
      · rw [if_pos hek, adjust_table _ he, ok_bind, pure_bind_ok, ih _ _ hrows.2 hn']
        refine congrArg Except.ok (Prod.ext (table_congr fun i _ => ?_) (table_congr fun i _ => ?_))
        · by_cases hi : i = e
          · rw [hi, if_neg fun h => hrows.1 h.1, Function.update_self, if_pos ⟨List.mem_cons_self, hek⟩]
          · simp only [List.mem_cons, hi, false_or, Function.update_of_ne hi]
        · by_cases hi : i = e
          · rw [hi, if_neg (by omega), if_neg (by omega)]
          · simp only [List.mem_cons, hi, false_or]
      · rw [if_neg (lt_irrefl e), if_neg (lt_irrefl e), pure_bind_ok, ih _ _ hrows.2 hn']
        refine congrArg Except.ok (Prod.ext (table_congr fun i _ => ?_) (table_congr fun i _ => ?_))
        · by_cases hi : i = e
          · rw [hi, if_neg (by omega), if_neg (by omega)]
          · simp only [List.mem_cons, hi, false_or]
        · by_cases hi : i = e
          · rw [hi, if_neg (by omega), if_neg (by omega)]
          · simp only [List.mem_cons, hi, false_or]
      · rw [if_neg (by omega), if_pos hek, adjust_table _ he, ok_bind, pure_bind_ok, ih _ _ hrows.2 hn']
        refine congrArg Except.ok (Prod.ext (table_congr fun i _ => ?_) (table_congr fun i _ => ?_))
        · by_cases hi : i = e
          · rw [hi, if_neg (by omega), if_neg (by omega)]
          · simp only [List.mem_cons, hi, false_or]
        · by_cases hi : i = e
          · rw [hi, if_neg fun h => hrows.1 h.1, Function.update_self, if_pos ⟨List.mem_cons_self, hek⟩]
          · simp only [List.mem_cons, hi, false_or, Function.update_of_ne hi]

end Columns

section Entries

theorem eliminate_of_inactive {r : RowState K} (h : fetch r.factor.active j = .ok false) : eliminate k r j = .ok r := by
  rw [eliminate, h]
  rfl

theorem eliminateNew_of_inactive {r : RowState K} (h : fetch r.factor.active j = .ok false) :
    eliminateNew k r j = .ok r := by
  rw [eliminateNew, h]
  rfl

variable (sigma l d w w2) in
/-- The elimination of one entry: the rows of its column that come before row `k` lose their share, and the rest is
divided by the pivot. -/
theorem eliminate_eq (hhas : s.has k j = true) (hj : act j = true) (hk : act k = true) (p : K) (flops : ℕ) :
    ∃ flops', eliminate k ⟨s.factor act l d sigma w w2, p, flops⟩ j = (do
      let x ← Scalar.quotient (w j) (d j)
      return ⟨s.factor act (fun i c => if i = k ∧ c = j then x else l i c) d sigma
        (fun i => if i = j then 0 else if s.has i j = true ∧ act i = true ∧ i < k then w i - l i j * w j else w i) w2,
        p - w j * x, flops'⟩) := by
  have hlt := s.lt_of_has hhas
  have hjs : j < s.size := hlt.1.trans hlt.2
  have habove : (((s.column j).filter act).map fun i => (i, l i j)).takeWhile (fun e => decide (e.1 < k)) =
      (((s.column j).filter act).filter fun i => decide (i < k)).map fun i => (i, l i j) := by
    rw [takeWhile_lt_eq_filter, List.filter_map]
    · rfl
    · rw [List.map_map]
      exact List.map_id _ ▸ (s.column_ascending j).filter act
  have hloop : ((((s.column j).filter act).filter fun i => decide (i < k)).map fun i => (i, l i j)).foldlM
      (fun x e => adjust x e.1 (· - e.2 * w j)) (table s.size (Function.update w j 0)) =
      .ok (table s.size fun i => if i = j then 0 else
        if s.has i j = true ∧ act i = true ∧ i < k then w i - l i j * w j else w i) := by
    rw [List.foldlM_map, foldlM_adjust_table (fun i x => x - l i j * w j)
      ((((s.column_ascending j).filter act).filter _).imp Nat.ne_of_lt) fun i hi =>
        (Fill.column_lt i (List.mem_of_mem_filter (List.mem_of_mem_filter hi))).2]
    refine congrArg Except.ok (table_congr fun i _ => ?_)
    have hmem : i ∈ ((s.column j).filter act).filter (fun i => decide (i < k)) ↔
        s.has i j = true ∧ act i = true ∧ i < k := by
      rw [List.mem_filter, List.mem_filter, Fill.mem_column, decide_eq_true_eq, and_assoc]
    simp only [hmem]
    by_cases hi : i = j
    · have hnot : ¬ (s.has i j = true ∧ act i = true ∧ i < k) := fun h => by
        have := (s.lt_of_has h.1).1
        omega
      rw [if_neg hnot, if_pos hi, hi, Function.update_self]
    · rw [if_neg hi, Function.update_of_ne hi]
  have hlive : (FactorColumn.ofRows (s.column j) act fun i => l i j).live =
      ((s.column j).filter act).map fun i => (i, l i j) := rfl
  refine ⟨flops + 2 *
    ((((s.column j).filter act).filter fun i => decide (i < k)).map fun i => (i, l i j)).length + 3, ?_⟩
  rw [eliminate]
  simp only [Fill.factor, fetch_table hjs, ok_bind, hj, Bool.not_true, Bool.false_eq_true, if_false,
    store_table _ hjs, hlive, habove, hloop, FactorColumn.setValue_ofRows (Fill.mem_column.2 hhas) hk,
    Fill.table_update_entry]

theorem eliminate_ok (hhas : s.has k j = true) (hj : act j = true) (hk : act k = true)
    (hd : Scalar.isDivisor (d j) = true) (p : K) (flops : ℕ) :
    ∃ flops', eliminate k ⟨s.factor act l d sigma w w2, p, flops⟩ j =
      .ok ⟨s.factor act (fun i c => if i = k ∧ c = j then w j / d j else l i c) d sigma
        (fun i => if i = j then 0 else if s.has i j = true ∧ act i = true ∧ i < k then w i - l i j * w j else w i) w2,
        p - w j * (w j / d j), flops'⟩ := by
  obtain ⟨flops', h⟩ := eliminate_eq sigma l d w w2 hhas hj hk p flops
  exact ⟨flops', by rw [h, Scalar.quotient_ok hd]; rfl⟩

variable (sigma l d w w2) in
/-- The elimination of one entry of the new row: the rows of its column before the new row lose their share, what
the rows after it lose is added up, and the rest is divided by the pivot. -/
theorem eliminateNew_eq (hhas : s.has k j = true) (hj : act j = true) (hk : act k = true) (p : K) (flops : ℕ) :
    ∃ flops', eliminateNew k ⟨s.factor act l d sigma w w2, p, flops⟩ j = (do
      let x ← Scalar.quotient (w j) (d j)
      return ⟨s.factor act (fun i c => if i = k ∧ c = j then x else l i c) d sigma
        (fun i => if i = j then 0 else if s.has i j = true ∧ act i = true ∧ i < k then w i - l i j * w j else w i)
        (fun i => if s.has i j = true ∧ act i = true ∧ k < i then w2 i + l i j * w j else w2 i),
        p - w j * x, flops'⟩) := by
  have hlt := s.lt_of_has hhas
  have hjs : j < s.size := hlt.1.trans hlt.2
  have hlive : (FactorColumn.ofRows (s.column j) act fun i => l i j).live =
      ((s.column j).filter act).map fun i => (i, l i j) := rfl
  have hspread := spread_table (Function.update w j 0) w2 (k := k) (v := fun i => l i j)
    (((s.column_ascending j).filter act).imp Nat.ne_of_lt)
    (fun i hi => (Fill.column_lt i (List.mem_of_mem_filter hi)).2) (w j)
  refine ⟨flops + 2 * (((s.column j).filter act).map fun i => (i, l i j)).length, ?_⟩
  rw [eliminateNew]
  simp only [Fill.factor, fetch_table hjs, ok_bind, hj, Bool.not_true, Bool.false_eq_true, if_false,
    store_table _ hjs, hlive, hspread, FactorColumn.setValue_ofRows (Fill.mem_column.2 hhas) hk,
    Fill.table_update_entry, List.mem_filter, Fill.mem_column, and_assoc]
  have hwork : (table s.size fun i => if s.has i j = true ∧ act i = true ∧ i < k then
        Function.update w j 0 i - l i j * w j else Function.update w j 0 i) =
      table s.size fun i => if i = j then 0 else
        if s.has i j = true ∧ act i = true ∧ i < k then w i - l i j * w j else w i := by
    refine table_congr fun i _ => ?_
    by_cases hi : i = j
    · rw [if_neg fun h => by have := (s.lt_of_has h.1).1; omega, if_pos hi, hi, Function.update_self]
    · rw [if_neg hi, Function.update_of_ne hi]
  rw [hwork]

theorem eliminateNew_ok (hhas : s.has k j = true) (hj : act j = true) (hk : act k = true)
    (hd : Scalar.isDivisor (d j) = true) (p : K) (flops : ℕ) :
    ∃ flops', eliminateNew k ⟨s.factor act l d sigma w w2, p, flops⟩ j =
      .ok ⟨s.factor act (fun i c => if i = k ∧ c = j then w j / d j else l i c) d sigma
        (fun i => if i = j then 0 else if s.has i j = true ∧ act i = true ∧ i < k then w i - l i j * w j else w i)
        (fun i => if s.has i j = true ∧ act i = true ∧ k < i then w2 i + l i j * w j else w2 i),
        p - w j * (w j / d j), flops'⟩ := by
  obtain ⟨flops', h⟩ := eliminateNew_eq sigma l d w w2 hhas hj hk p flops
  exact ⟨flops', by rw [h, Scalar.quotient_ok hd]; rfl⟩

end Entries

section Rows

/-- A change of the columns in the pattern of row `k`. -/
theorem changeRow_ok {change : FactorColumn K → Checked (FactorColumn K)} {active : Array Bool} (hk : k < s.size)
    (hchange : ∀ j, s.has k j = true → change (.ofRows (s.column j) act fun i => l i j) =
      .ok (.ofRows (s.column j) act' fun i => l' i j))
    (hkeep : ∀ j, ¬ s.has k j = true → FactorColumn.ofRows (s.column j) act (fun i => l i j) =
      .ofRows (s.column j) act' fun i => l' i j) :
    (s.row k).foldlM (fun f j => f.changeColumn j change)
      ({ s.factor act l d sigma w w2 with active := active } : LdlFactor K) =
      .ok { s.factor act' l' d sigma w w2 with active := active } := by
  -- the columns before `j` are changed
  obtain ⟨f, hf, rfl⟩ := foldlM_range (n := k) (f := fun f j => if s.has k j then f.changeColumn j change else .ok f)
    (fun j f => f = ({ s.factor act l d sigma w w2 with
      columns := table s.size fun c => if c < j then .ofRows (s.column c) act' fun i => l' i c
        else .ofRows (s.column c) act fun i => l i c
      active := active } : LdlFactor K))
    (b := { s.factor act l d sigma w w2 with active := active }) (by simp [Fill.factor]) (by
      rintro j hj _ rfl
      have hjs := hj.trans hk
      by_cases hhas : s.has k j = true
      · refine ⟨_, ?_, rfl⟩
        rw [if_pos hhas, changeColumn]
        simp only [fetch_table hjs, ok_bind, lt_irrefl, if_false, hchange j hhas, store_table _ hjs]
        congr 2
        refine table_congr fun c _ => ?_
        by_cases hc : c = j
        · rw [hc, Function.update_self, if_pos (Nat.lt_succ_self j)]
        · have hiff : c < j ↔ c < j + 1 := by omega
          rw [Function.update_of_ne hc]
          simp only [hiff]
      · rw [if_neg hhas]
        refine ⟨_, rfl, ?_⟩
        simp only [LdlFactor.mk.injEq, and_self, and_true]
        refine table_congr fun c _ => ?_
        by_cases hc : c = j
        · rw [hc, if_neg (lt_irrefl j), if_pos (Nat.lt_succ_self j), hkeep j hhas]
        · have hiff : c < j ↔ c < j + 1 := by omega
          simp only [hiff])
  rw [Fill.row, foldlM_filter, hf]
  simp only [Fill.factor, Except.ok.injEq, LdlFactor.mk.injEq, and_self, and_true]
  refine table_congr fun c _ => ?_
  split_ifs with hc
  · rfl
  · exact hkeep c fun hhas => hc (s.lt_of_has hhas).1

theorem ne_of_not_has {i : ℕ} (hhas : ¬ s.has k j = true) (hi : i ∈ s.column j) : i ≠ k :=
  fun h => hhas (Fill.mem_column.1 (h ▸ hi))

variable (sigma l d w w2) in
theorem killRow_ok (hk : k < s.size) (hact : act k = true) (active : Array Bool) :
    (s.row k).foldlM (fun f j => f.changeColumn j (·.kill k))
      ({ s.factor act l d sigma w w2 with active := active } : LdlFactor K) =
      .ok { s.factor (Function.update act k false) l d sigma w w2 with active := active } := by
  refine changeRow_ok hk (fun j hhas => ?_) fun j hhas => FactorColumn.ofRows_congr (fun i hi => ?_) fun _ _ _ => rfl
  · exact FactorColumn.kill_ofRows (s.column_ascending j) (Fill.mem_column.2 hhas) hact
  · rw [Function.update_of_ne (ne_of_not_has hhas hi)]

variable (sigma l d w w2) in
theorem reviveRow_ok (hk : k < s.size) (hact : act k = false) (active : Array Bool) :
    (s.row k).foldlM (fun f j => f.changeColumn j (·.revive k))
      ({ s.factor act l d sigma w w2 with active := active } : LdlFactor K) =
      .ok { s.factor (Function.update act k true) (fun i c => if i = k then 0 else l i c) d sigma w w2 with
        active := active } := by
  refine changeRow_ok hk (fun j hhas => ?_) fun j hhas => FactorColumn.ofRows_congr (fun i hi => ?_) fun i hi _ => ?_
  · rw [FactorColumn.revive_ofRows (s.column_ascending j) (Fill.mem_column.2 hhas) hact]
    refine congrArg Except.ok (FactorColumn.ofRows_congr (fun _ _ => rfl) fun i _ _ => ?_)
    by_cases hi : i = k
    · rw [hi, Function.update_self, if_pos rfl]
    · rw [Function.update_of_ne hi, if_neg hi]
  · rw [Function.update_of_ne (ne_of_not_has hhas hi)]
  · rw [if_neg (ne_of_not_has hhas hi)]

theorem clearColumn_ok (hk : k < s.size) : (s.factor act l d sigma w w2).changeColumn k
      (fun c => return { c with live := c.live.map fun e => (e.1, 0) }) =
    .ok (s.factor act (fun i c => if c = k then 0 else l i c) d sigma w w2) := by
  refine Fill.changeColumn_factor hk ?_
  rw [pure_eq_ok_iff]
  simp only [FactorColumn.ofRows, List.map_map]
  rfl

/-- Sorting the columns again brings the rows that are active now into their place. -/
theorem resymbol_ok : ∃ flops, ({ s.factor act l d sigma w w2 with
      active := table s.size act' } : LdlFactor K).resymbol =
    .ok (s.factor act' (fun i c => if act i then l i c else 0) (fun i => if act' i then d i else 1) sigma w w2,
      flops) := by
  rw [resymbol]
  simp only [Fill.factor]
  rw [mapM_table (h := fun j => FactorColumn.ofRows (s.column j) act' fun i => if act i then l i j else 0)
    fun j _ => FactorColumn.splitColumn_ofRows (s.column_ascending j) fun i hi => (Fill.column_lt i hi).2]
  refine ⟨_, congrArg Except.ok (Prod.ext ?_ rfl)⟩
  simp only [mapIdx_table]
  congr 1
  exact table_congr fun i hi => by rw [getD_table_of_lt hi]

theorem clear_factor : ({ s.factor act l d sigma w w2 with
      columns := (s.factor act l d sigma w w2).columns.map fun c => { c with live := c.live.map fun e => (e.1, 0) }
      diag := (s.factor act l d sigma w w2).diag.map fun _ => 1 } : LdlFactor K) =
    s.factor act (fun _ _ => 0) (fun _ => 1) sigma w w2 := by
  simp only [Fill.factor, map_table, FactorColumn.ofRows, List.map_map]
  rfl

end Rows

section Product

/-- One round of a product: the column is swept if the vector is not zero in its row, and the path goes on in the first
active row of the column. -/
theorem rankOneFrom_eq (floor : K → K) (steps flops : ℕ) (hj : j < s.size) :
    rankOneFrom floor (steps + 1) (s.factor act l d sigma w w2) j alpha flops =
      (if w j != 0 then do
        let gamma ← Scalar.quotient (w j * alpha) (floor (d j + alpha * w j * w j))
        let rest ← Scalar.quotient (alpha * d j) (floor (d j + alpha * w j * w j))
        return (s.factor act
            (fun i c => if c = j then l i c + gamma * (Function.update w j 0 i - w j * l i c) else l i c)
            (Function.update d j (floor (d j + alpha * w j * w j))) sigma
            (fun i => if i ∈ (s.column j).filter act then Function.update w j 0 i - w j * l i j
              else Function.update w j 0 i) w2, rest, flops + 4 * ((s.column j).filter act).length + 6)
      else return (s.factor act l d sigma (Function.update w j 0) w2, alpha, flops)) >>= fun r =>
        ((s.column j).filter act).head?.elim (.ok (r.1, r.2.2)) fun next =>
          rankOneFrom floor steps r.1 next r.2.1 r.2.2 := by
  have hlive : (FactorColumn.ofRows (s.column j) act fun i => l i j).live =
      ((s.column j).filter act).map fun i => (i, l i j) := rfl
  have hnodup : ((s.column j).filter act).Nodup := ((s.column_ascending j).filter act).imp Nat.ne_of_lt
  rw [rankOneFrom]
  simp only [Fill.factor, fetch_table hj, ok_bind, store_table _ hj, hlive, List.length_map]
  by_cases hzero : (w j != 0) = true
  · rw [if_pos hzero, if_pos hzero, bind_assoc]
    refine congrArg _ (funext fun gamma => ?_)
    rw [sweepColumn_table _ _ hnodup fun i hi => (Fill.column_lt i (List.mem_of_mem_filter hi)).2, ok_bind, bind_assoc]
    refine congrArg _ (funext fun rest => ?_)
    rw [pure_bind_ok, pure_bind_ok]
    dsimp only
    rw [Fill.table_update_column s.size j fun i c => l i c + gamma * (Function.update w j 0 i - w j * l i c)]
    cases (s.column j).filter act <;> rfl
  · rw [if_neg hzero, if_neg hzero, pure_bind_ok, pure_bind_ok]
    cases (s.column j).filter act <;> rfl

/-- The product of the column of a row starts in the first active row of the column. -/
theorem addLiveColumn_eq (floor : K → K) (hk : k < s.size) :
    addLiveColumn floor (s.factor act l d sigma (fun _ => 0) w2) k alpha =
      ((s.column k).filter act).head?.elim (.ok (s.factor act l d sigma (fun _ => 0) w2, 0)) fun first =>
        rankOne floor (s.factor act l d sigma (fun i => if i ∈ (s.column k).filter act then l i k else 0) w2) first
          alpha := by
  have hlive : (s.factor act l d sigma (fun _ => 0) w2).live k =
      .ok (((s.column k).filter act).map fun i => (i, l i k)) := by
    rw [live, Fill.factor, fetch_table hk]
    rfl
  have hstored : (((s.column k).filter act).map fun i => (i, l i k)).foldlM (fun w e => store w e.1 e.2)
      (table s.size fun _ => (0 : K)) = .ok (table s.size fun i => if i ∈ (s.column k).filter act then l i k else 0) :=
    foldlM_store_table fun i hi => (Fill.column_lt i (List.mem_of_mem_filter hi)).2
  rw [addLiveColumn, hlive, ok_bind]
  cases hrows : (s.column k).filter act with
  | nil => rfl
  | cons first rows =>
      rw [hrows] at hstored
      simp only [List.map_cons, Fill.factor] at hstored ⊢
      rw [hstored]
      rfl
end Product

end LdlFactor

end PolyProjection
