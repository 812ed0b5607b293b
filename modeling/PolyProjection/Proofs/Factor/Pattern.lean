import Mathlib
import PolyProjection.Factor.Pattern
import PolyProjection.Proofs.Factor.Normal
import PolyProjection.Proofs.Sparse.Transpose

/-! The fill pattern. It is the least pattern that has the coupled rows and contains its fill; the elimination tree
leads from each row of the pattern of a column to the row itself, so that the paths from the coupled rows are the
pattern. -/

namespace PolyProjection

set_option linter.unusedSectionVars false

variable {α : Type}

/-- Rows `i` and `k` have stored entries in a common column. -/
def SparseMatrix.Coupled (a : SparseMatrix α) (i k : ℕ) : Prop :=
  ∃ j, i ∈ (a.columnEntries j).map Prod.fst ∧ k ∈ (a.columnEntries j).map Prod.fst

namespace FillPattern

/-- Row `i` has an entry in column `j` below the diagonal: the rows are coupled, or elimination of an earlier column
joins them. -/
inductive Filled (a : SparseMatrix α) : ℕ → ℕ → Prop where
  | coupled {i j : ℕ} : a.Coupled j i → j < i → Filled a i j
  | fill {i j k : ℕ} : Filled a i j → Filled a k j → i < k → Filled a k i

variable {a aT : SparseMatrix α} {n i j k : ℕ}

theorem Filled.lt (h : Filled a i j) : j < i := by
  cases h with
  | coupled _ hlt => exact hlt
  | fill _ _ hlt => exact hlt

theorem Filled.row_lt (ha : a.Formatted) (h : Filled a i j) : i < a.nrows := by
  induction h with
  | @coupled i j hc _ =>
      obtain ⟨c, -, hi⟩ := hc
      obtain ⟨e, he, rfl⟩ := List.mem_map.1 hi
      exact ha.row_lt c e he
  | fill _ _ _ _ ih => exact ih

section Coupled

theorem ascending_mergeSort {l : List ℕ} (hl : l.Nodup) : (l.mergeSort).Pairwise (· < ·) := by
  have hle : (l.mergeSort).Pairwise (· ≤ ·) :=
    (List.pairwise_mergeSort (fun a b c => by simpa using le_trans) (fun a b => by simpa using le_total a b) l).imp
      fun h => by simpa using h
  have hnodup : (l.mergeSort).Nodup := (List.mergeSort_perm l _).nodup_iff.2 hl
  exact (hle.and hnodup).imp fun h => lt_of_le_of_ne h.1 h.2

theorem mem_foldl_insert {l found : List ℕ} {i : ℕ} (hfound : found.Nodup) :
    (l.foldl (fun found i => found.insert i) found).Nodup ∧
      (i ∈ l.foldl (fun found i => found.insert i) found ↔ i ∈ found ∨ i ∈ l) := by
  induction l generalizing found with
  | nil => simp [hfound]
  | cons x l ih =>
      rw [List.foldl_cons]
      refine ⟨(ih hfound.insert).1, (ih hfound.insert).2.trans ?_⟩
      rw [List.mem_insert_iff, List.mem_cons]
      tauto

/-- The coupled rows of a row, in ascending order and with the row itself. -/
theorem coupled_ok (ha : a.Formatted) (hT : SparseMatrix.IsTranspose a aT) (hk : k < a.nrows) :
    ∃ l, coupled a aT k = .ok l ∧ l.Pairwise (· < ·) ∧ ∀ i, i ∈ l ↔ i = k ∨ i < k ∧ a.Coupled i k := by
  obtain ⟨c, hc, hlist⟩ := hT.fits.column_ok (j := k) (by rw [hT.ncols]; exact hk)
  obtain ⟨found, hfound, hnodup, hmem⟩ := foldlM_succeeds (l := aT.columnEntries k) (b := [k])
    (f := fun found e => do
      let above := ((← a.column e.1).toList.map Prod.fst).takeWhile (· < k)
      return above.foldl (fun found i => found.insert i) found)
    (fun done found => found.Nodup ∧ ∀ i, i ∈ found ↔
      i = k ∨ i < k ∧ ∃ e ∈ done, i ∈ (a.columnEntries e.1).map Prod.fst)
    ⟨List.nodup_singleton k, fun i => by simp⟩ (by
      rintro done e rest found hdone ⟨hnodup, hmem⟩
      obtain ⟨c, hc, hlist⟩ := ha.toFits.column_ok (hT.col_lt k e (by rw [hdone]; simp))
      refine ⟨_, by rw [hc]; rfl, (mem_foldl_insert (i := 0) hnodup).1, fun i => ?_⟩
      have hasc : ((c.toList.map Prod.fst).map id).Pairwise (· < ·) := by
        rw [List.map_id, hlist]
        exact ha.ascending e.1
      have hcut := takeWhile_lt_eq_filter hasc k
      simp only [id] at hcut
      rw [(mem_foldl_insert hnodup).2, hmem, hcut, List.mem_filter, hlist, decide_eq_true_eq]
      simp only [List.mem_append, List.mem_singleton, or_and_right, exists_or, exists_eq_left, and_or_left,
        or_assoc, and_comm])
  refine ⟨found.mergeSort, ?_, ascending_mergeSort hnodup, fun i => ?_⟩
  · rw [coupled, hc, ok_bind, ← Array.foldlM_toList, hlist, hfound]
    rfl
  · rw [List.mem_mergeSort, hmem]
    refine or_congr_right (and_congr_right fun _ => ?_)
    constructor
    · rintro ⟨e, he, hi⟩
      exact ⟨e.1, hi, List.mem_map.2 ⟨(k, e.2), (hT.mem_iff ha).1 he, rfl⟩⟩
    · rintro ⟨j, hi, hk⟩
      obtain ⟨⟨r, v⟩, he, rfl⟩ := List.mem_map.1 hk
      exact ⟨(j, v), (hT.mem_iff ha).2 he, hi⟩

end Coupled

section Tree

/-- Row `i` leads to row `j` in the tree. -/
def Above (parent : ℕ → Option ℕ) (i j : ℕ) : Prop :=
  Relation.ReflTransGen (fun i p => parent i = some p) i j

/-- A parent comes after its row, up to row `j`, and has an entry in its column. -/
def IsTree (a : SparseMatrix α) (parent : ℕ → Option ℕ) (j : ℕ) : Prop :=
  ∀ i p, parent i = some p → i < p ∧ p ≤ j ∧ Filled a p i

variable {parent parent' visitor : ℕ → Option ℕ} {rows : ℕ → List ℕ} {l : ℕ}

theorem Above.mono (hsub : ∀ i p, parent i = some p → parent' i = some p) (h : Above parent i j) :
    Above parent' i j :=
  Relation.ReflTransGen.mono hsub _ _ h

theorem IsTree.le (h : IsTree a parent l) (hij : Above parent i j) : i ≤ j := by
  induction hij with
  | refl => exact le_rfl
  | tail _ hp ih => exact ih.trans (h _ _ hp).1.le

/-- Of two rows that one leads to, the earlier one leads to the later one. -/
theorem IsTree.above_of_le (h : IsTree a parent l) (hj : Above parent i j) (hk : Above parent i k) (hjk : j ≤ k) :
    Above parent j k := by
  have hunique : Relator.RightUnique fun i p => parent i = some p := fun _ _ _ hp hq =>
    Option.some.inj (hp.symm.trans hq)
  rcases Relation.ReflTransGen.total_of_right_unique hunique hj hk with h' | h'
  · exact h'
  · rw [hjk.antisymm (h.le h')]
    exact .refl

/-- The paths in the tree from the coupled rows of row `k` are its part of the least pattern. -/
theorem filled_iff (hrows : ∀ k < n, ∀ i, i ∈ rows k ↔ i = k ∨ i < k ∧ a.Coupled i k) (htree : IsTree a parent l)
    (habove : ∀ k < n, ∀ i ∈ rows k, Above parent i k) {k y : ℕ} (hk : k < n) :
    Filled a k y ↔ ∃ i ∈ rows k, i ≠ k ∧ Above parent i y ∧ y < k := by
  constructor
  · intro h
    induction h with
    | @coupled i j hc hlt => exact ⟨j, (hrows i hk j).2 (Or.inr ⟨hlt, hc⟩), hlt.ne, .refl, hlt⟩
    | @fill i j k hij hkj hik ihi ihk =>
        obtain ⟨r, hr, -, hrj, hji⟩ := ihi (by omega)
        obtain ⟨q, hq, hne, hqj, -⟩ := ihk hk
        exact ⟨q, hq, hne, hqj.trans (htree.above_of_le hrj (habove i (by omega) r hr) hji.le), hik⟩
  · rintro ⟨i, hi, hne, hiy, hyk⟩
    have hik := ((hrows k hk i).1 hi).resolve_left hne
    induction hiy with
    | refl => exact .coupled hik.2 hik.1
    | tail _ hp ih =>
        obtain ⟨hlt, -, hfill⟩ := htree _ _ hp
        exact .fill hfill (ih (hlt.trans hyk)) hyk

/-- Every row with the mark of row `j` leads to a row with the mark or to row `i`. -/
def Trail (parent visitor : ℕ → Option ℕ) (j i : ℕ) : Prop :=
  ∀ x, visitor x = some j → x = j ∨ ∃ p, parent x = some p ∧ (visitor p = some j ∨ p = i)

theorem Trail.above (h : Trail parent visitor j j) (htree : IsTree a parent j) (hself : visitor j = some j) {x : ℕ}
    (hx : visitor x = some j) : Above parent x j := by
  induction hd : j - x using Nat.strong_induction_on generalizing x with
  | _ d ih =>
      rcases h x hx with rfl | ⟨p, hp, hmark⟩
      · exact .refl
      · obtain ⟨hlt, hle, -⟩ := htree x p hp
        have hmark : visitor p = some j := hmark.elim id fun h => h ▸ hself
        exact .head hp (ih (j - p) (by omega) hmark rfl)

theorem Trail.mark_of_above (h : Trail parent visitor j j) (htree : IsTree a parent j) (hself : visitor j = some j)
    {x y : ℕ} (hx : visitor x = some j) (hxy : Above parent x y) : visitor y = some j := by
  induction hxy with
  | refl => exact hx
  | @tail y p _ hp ih =>
      rcases h y ih with rfl | ⟨q, hq, hmark⟩
      · exact absurd (htree y p hp).1 (not_lt.2 (htree y p hp).2.1)
      · rw [hq, Option.some.injEq] at hp
        exact hp ▸ hmark.elim id fun h => h ▸ hself

/-- What a walk of row `j` does: the tree grows, new marks are those of row `j` on rows that it has an entry in, and
the rows with a new mark are counted. -/
structure Walked (a : SparseMatrix α) (j : ℕ) (parent visitor : ℕ → Option ℕ) (count : ℕ → ℕ)
    (parent' visitor' : ℕ → Option ℕ) (count' : ℕ → ℕ) : Prop where
  grows : ∀ i p, parent i = some p → parent' i = some p
  tree : IsTree a parent' j
  marked : ∀ i v, visitor' i = some v → v = j ∨ visitor i = some v
  keeps : ∀ i, visitor i = some j → visitor' i = some j
  filled : ∀ i, visitor' i = some j → visitor i = some j ∨ Filled a j i
  counted : ∀ i, count' i = if visitor' i = some j ∧ visitor i ≠ some j then count i + 1 else count i

variable {parent'' visitor' visitor'' : ℕ → Option ℕ} {count count' count'' : ℕ → ℕ}

theorem Walked.refl (htree : IsTree a parent j) : Walked a j parent visitor count parent visitor count :=
  ⟨fun _ _ h => h, htree, fun _ _ h => Or.inr h, fun _ h => h, fun _ h => Or.inl h,
    fun _ => (if_neg fun h => h.2 h.1).symm⟩

theorem Walked.trans (h : Walked a j parent visitor count parent' visitor' count')
    (h' : Walked a j parent' visitor' count' parent'' visitor'' count'') :
    Walked a j parent visitor count parent'' visitor'' count'' where
  grows i p hp := h'.grows i p (h.grows i p hp)
  tree := h'.tree
  marked i v hv := (h'.marked i v hv).elim Or.inl (h.marked i v)
  keeps i hi := h'.keeps i (h.keeps i hi)
  filled i hi := (h'.filled i hi).elim (h.filled i) Or.inr
  counted i := by
    rw [h'.counted, h.counted]
    have hkeeps := h.keeps i
    have hkeeps' := h'.keeps i
    by_cases h₀ : visitor i = some j <;> by_cases h₁ : visitor' i = some j <;> simp_all

/-- The row that a walk of row `j` goes on to is a parent in the tree, also if the row had none before. -/
theorem IsTree.next (htree : IsTree a parent j) (hfill : Filled a j i) :
    i < (parent i).getD j ∧ (parent i).getD j ≤ j ∧ Filled a ((parent i).getD j) i := by
  cases hp : parent i with
  | none => exact ⟨hfill.lt, le_rfl, hfill⟩
  | some p => exact htree i p hp

/-- One step of a walk: the row gets the mark, and a parent unless it has one. -/
theorem walked_visit (count : ℕ → ℕ) (htree : IsTree a parent j) (hfill : Filled a j i) (hnew : visitor i ≠ some j) :
    Walked a j parent visitor count (Function.update parent i (some ((parent i).getD j)))
      (Function.update visitor i (some j)) (Function.update count i (count i + 1)) where
  grows x p hp := by
    by_cases hx : x = i
    · rw [hx, Function.update_self, ← hx, hp, Option.getD_some]
    · rw [Function.update_of_ne hx, hp]
  tree x p hp := by
    by_cases hx : x = i
    · rw [hx, Function.update_self, Option.some.injEq] at hp
      rw [hx, ← hp]
      exact htree.next hfill
    · rw [Function.update_of_ne hx] at hp
      exact htree x p hp
  marked x v hv := by
    by_cases hx : x = i
    · rw [hx, Function.update_self, Option.some.injEq] at hv
      exact .inl hv.symm
    · rw [Function.update_of_ne hx] at hv
      exact .inr hv
  keeps x hx := by
    by_cases hxi : x = i
    · rw [hxi, Function.update_self]
    · rw [Function.update_of_ne hxi, hx]
  filled x hx := by
    by_cases hxi : x = i
    · exact .inr (hxi ▸ hfill)
    · rw [Function.update_of_ne hxi] at hx
      exact .inl hx
  counted x := by
    by_cases hxi : x = i
    · rw [hxi, Function.update_self, Function.update_self, if_pos ⟨rfl, hnew⟩]
    · rw [Function.update_of_ne hxi, Function.update_of_ne hxi, if_neg fun h => h.2 h.1]

/-- After a step of the walk every row with the mark leads to one with the mark or to where the walk goes on. -/
theorem Trail.visit (h : Trail parent visitor j i) : Trail (Function.update parent i (some ((parent i).getD j)))
    (Function.update visitor i (some j)) j ((parent i).getD j) := by
  intro x hx
  by_cases hxi : x = i
  · exact .inr ⟨_, by rw [hxi, Function.update_self], .inr rfl⟩
  · rw [Function.update_of_ne hxi] at hx
    refine (h x hx).imp_right ?_
    rintro ⟨p, hp, hmark⟩
    refine ⟨p, by rw [Function.update_of_ne hxi, hp], .inl ?_⟩
    by_cases hpi : p = i
    · rw [hpi, Function.update_self]
    · rw [Function.update_of_ne hpi]
      exact hmark.resolve_right hpi

/-- A trail that leads to a row with the mark has closed. -/
theorem Trail.of_mark {k : ℕ} (h : Trail parent visitor j i) (hi : visitor i = some j) : Trail parent visitor j k :=
  fun x hx => (h x hx).imp_right fun ⟨p, hp, hmark⟩ => ⟨p, hp, .inl (hmark.elim id fun h => h ▸ hi)⟩

/-- The walk of row `j` from a row that it has an entry in ends; the row has the mark of row `j` afterwards. -/
theorem climb_ok (count : ℕ → ℕ) (hj : j < n) (steps : ℕ) (hsteps : j - i < steps) (hi : i ≤ j)
    (hfill : i = j ∨ Filled a j i) (htree : IsTree a parent j) (hself : visitor j = some j)
    (htrail : Trail parent visitor j i) :
    ∃ parent' visitor' count', TreeWalk.climb j steps ⟨table n parent, table n visitor, table n count⟩ i =
      .ok ⟨table n parent', table n visitor', table n count'⟩ ∧
        Walked a j parent visitor count parent' visitor' count' ∧ Trail parent' visitor' j j ∧
        visitor' i = some j := by
  induction steps generalizing i parent visitor count with
  | zero => omega
  | succ steps ih =>
      have hin : i < n := by omega
      rw [TreeWalk.climb]
      simp only [fetch_table hin, ok_bind]
      by_cases hvisited : visitor i = some j
      · rw [if_pos (by simp [hvisited])]
        exact ⟨parent, visitor, count, rfl, .refl htree, htrail.of_mark hvisited, hvisited⟩
      · rw [if_neg (by simpa using hvisited), store_table _ hin, ok_bind, store_table _ hin, ok_bind,
          adjust_table _ hin, ok_bind]
        have hfill := hfill.resolve_left fun h => hvisited (h ▸ hself)
        obtain ⟨hlt, hle, hnext⟩ := htree.next hfill
        have hstep := walked_visit count htree hfill hvisited
        obtain ⟨parent', visitor', count', hok, hwalked, htrail', -⟩ := ih (i := (parent i).getD j)
          (Function.update count i (count i + 1)) (by omega) hle
          (hle.eq_or_lt.imp_right fun hup => .fill hnext hfill hup) hstep.tree (hstep.keeps j hself) htrail.visit
        exact ⟨parent', visitor', count', hok, hstep.trans hwalked, htrail',
          hwalked.keeps i (Function.update_self ..)⟩

section Row

variable (hrows : ∀ k < n, ∀ i, i ∈ rows k ↔ i = k ∨ i < k ∧ a.Coupled i k)

include hrows

/-- The walks of row `j` from its coupled rows end, and mark each of these. -/
theorem climbs_ok (count : ℕ → ℕ) (hj : j < n) (htree : IsTree a parent j) (hself : visitor j = some j)
    (hstart : ∀ x, visitor x = some j → x = j) : ∃ parent' visitor' count', (rows j).foldlM
      (fun w i => TreeWalk.climb j (n + 1) w i) ⟨table n parent, table n visitor, table n count⟩ =
        .ok ⟨table n parent', table n visitor', table n count'⟩ ∧
      Walked a j parent visitor count parent' visitor' count' ∧ Trail parent' visitor' j j ∧
      ∀ i ∈ rows j, visitor' i = some j := by
  obtain ⟨w, hw, parent', visitor', count', rfl, hdone⟩ := foldlM_succeeds (l := rows j)
    (f := fun w i => TreeWalk.climb j (n + 1) w i) (b := ⟨table n parent, table n visitor, table n count⟩)
    (fun done w => ∃ parent' visitor' count', w = ⟨table n parent', table n visitor', table n count'⟩ ∧
      Walked a j parent visitor count parent' visitor' count' ∧ Trail parent' visitor' j j ∧
        ∀ i ∈ done, visitor' i = some j)
    ⟨parent, _, _, rfl, .refl htree, fun x hx => .inl (hstart x hx), by simp⟩ (by
      rintro done i rest _ hdone ⟨parent₁, visitor₁, count₁, rfl, hwalked, htrail, hmark⟩
      have hi := (hrows j hj i).1 (by rw [hdone]; simp)
      have hself₁ := hwalked.keeps j hself
      obtain ⟨parent₂, visitor₂, count₂, hok, hwalked₂, htrail₂, hmark₂⟩ := climb_ok (i := i) count₁ hj
        (n + 1) (by omega) (by rcases hi with rfl | hi <;> omega) (hi.imp_right fun hi => .coupled hi.2 hi.1)
        hwalked.tree hself₁ (htrail.of_mark hself₁)
      refine ⟨_, hok, parent₂, visitor₂, count₂, rfl, hwalked.trans hwalked₂, htrail₂, fun x hx => ?_⟩
      rcases List.mem_append.1 hx with hx | hx
      · exact hwalked₂.keeps x (hmark x hx)
      · rw [List.mem_singleton.1 hx]
        exact hmark₂)
  exact ⟨parent', visitor', count', hw, hdone⟩

/-- Once the coupled rows of row `j` have its mark, a row has a new mark if and only if it is in the pattern. -/
theorem Walked.marked_iff (hj : j < n) (hwalked : Walked a j parent visitor count parent' visitor' count')
    (htrail : Trail parent' visitor' j j) (hself : visitor j = some j) (hstart : ∀ x, visitor x = some j → x = j)
    (hdone : ∀ i ∈ rows j, visitor' i = some j) (hleads : ∀ k < j + 1, ∀ i ∈ rows k, Above parent' i k) :
    visitor' i = some j ∧ visitor i ≠ some j ↔ Filled a j i := by
  constructor
  · rintro ⟨hi, hne⟩
    exact (hwalked.filled i hi).resolve_left hne
  · intro hi
    obtain ⟨r, hr, -, hri, -⟩ := (filled_iff (fun k hk => hrows k (by omega)) hwalked.tree hleads
      (Nat.lt_succ_self j)).1 hi
    exact ⟨htrail.mark_of_above hwalked.tree (hwalked.keeps j hself) (hdone r hr) hri,
      fun h => hi.lt.ne (hstart i h)⟩

end Row

open Classical in
/-- The tree of the rows before `j` and the rows of each column among them, as the walks of these rows leave it. -/
structure Grown (a : SparseMatrix α) (rows : ℕ → List ℕ) (n j : ℕ) (w : TreeWalk) (parent visitor : ℕ → Option ℕ)
    (count : ℕ → ℕ) : Prop where
  walk_eq : w = ⟨table n parent, table n visitor, table n count⟩
  tree : ∀ i p, parent i = some p → i < p ∧ p < j ∧ Filled a p i
  marked : ∀ i v, visitor i = some v → v < j
  leads : ∀ k < j, ∀ i ∈ rows k, Above parent i k
  counted : ∀ i, count i = ((List.range j).filter fun k => decide (Filled a k i)).length

theorem growRow_ok (hrows : ∀ k < n, ∀ i, i ∈ rows k ↔ i = k ∨ i < k ∧ a.Coupled i k) (hj : j < n) {w : TreeWalk}
    (h : Grown a rows n j w parent visitor count) :
    ∃ w' parent' visitor' count', (do
      let w : TreeWalk := { w with visitor := ← store w.visitor j (some j) }
      (← fetch (table n rows) j).foldlM (fun w i => TreeWalk.climb j (n + 1) w i) w) = .ok w' ∧
      Grown a rows n (j + 1) w' parent' visitor' count' := by
  obtain ⟨rfl, htree, hmarked, hleads, hcounted⟩ := h
  simp only [store_table _ hj, ok_bind, fetch_table hj]
  set visitor₀ := Function.update visitor j (some j) with hvisitor₀
  have hself : visitor₀ j = some j := Function.update_self ..
  have hstart : ∀ x, visitor₀ x = some j → x = j := fun x hx => by
    by_contra hne
    rw [hvisitor₀, Function.update_of_ne hne] at hx
    exact lt_irrefl j (hmarked x j hx)
  obtain ⟨parent', visitor', count', hw', hwalked, htrail, hdone⟩ := climbs_ok hrows count hj
    (fun i p hp => ⟨(htree i p hp).1, (htree i p hp).2.1.le, (htree i p hp).2.2⟩) hself hstart
  have hleads' : ∀ k < j + 1, ∀ i ∈ rows k, Above parent' i k := by
    intro k hk i hi
    rcases Nat.lt_succ_iff_lt_or_eq.1 hk with hk | rfl
    · exact (hleads k hk i hi).mono hwalked.grows
    · exact htrail.above hwalked.tree (hwalked.keeps k hself) (hdone i hi)
  have hnew : ∀ i, visitor' i = some j ∧ visitor₀ i ≠ some j ↔ Filled a j i := fun i =>
    hwalked.marked_iff hrows hj htrail hself hstart hdone hleads'
  refine ⟨_, parent', visitor', count', hw', rfl, fun i p hp => ?_, fun i v hv => ?_, hleads', fun i => ?_⟩
  · obtain ⟨hlt, hle, hfill⟩ := hwalked.tree i p hp
    exact ⟨hlt, by omega, hfill⟩
  · rcases hwalked.marked i v hv with rfl | h
    · exact Nat.lt_succ_self v
    · by_cases hij : i = j
      · rw [hij, hself, Option.some.injEq] at h
        omega
      · rw [hvisitor₀, Function.update_of_ne hij] at h
        have := hmarked i v h
        omega
  · rw [hwalked.counted, hcounted, List.range_succ, List.filter_append, List.length_append]
    by_cases hi : Filled a j i
    · rw [if_pos ((hnew i).2 hi), List.filter_cons_of_pos (by simpa using hi)]
      rfl
    · rw [if_neg (mt (hnew i).1 hi), List.filter_cons_of_neg (by simpa using hi)]
      rfl

open Classical in
/-- The elimination tree leads from each coupled row to its row, and the rows of each column are counted. -/
theorem eliminationTree_ok (hrows : ∀ k < n, ∀ i, i ∈ rows k ↔ i = k ∨ i < k ∧ a.Coupled i k) :
    ∃ parent, eliminationTree (table n rows) = .ok (table n parent,
        table n fun i => ((List.range n).filter fun k => decide (Filled a k i)).length) ∧
      IsTree a parent n ∧ ∀ k < n, ∀ i ∈ rows k, Above parent i k := by
  obtain ⟨w, hw, parent, visitor, count, hgrown⟩ := foldlM_range (n := n)
    (f := fun w j => do
      let w : TreeWalk := { w with visitor := ← store w.visitor j (some j) }
      (← fetch (table n rows) j).foldlM (fun w i => w.climb j (n + 1) i) w)
    (fun j w => ∃ parent visitor count, Grown a rows n j w parent visitor count)
    (b := ⟨Array.replicate n none, Array.replicate n none, Array.replicate n 0⟩)
    ⟨fun _ => none, fun _ => none, fun _ => 0, by simp only [replicate_eq_table], by simp, by simp, by simp, by simp⟩
    (by
      rintro j hj w ⟨parent, visitor, count, h⟩
      obtain ⟨w', parent', visitor', count', hok, h'⟩ := growRow_ok hrows hj h
      exact ⟨w', hok, parent', visitor', count', h'⟩)
  refine ⟨parent, ?_, fun i p hp => ?_, hgrown.leads⟩
  · rw [eliminationTree]
    simp only [size_table]
    rw [hw, ok_bind, hgrown.walk_eq]
    refine congrArg Except.ok (Prod.ext rfl (table_congr fun i _ => ?_))
    exact hgrown.counted i
  · obtain ⟨hlt, hle, hfill⟩ := hgrown.tree i p hp
    exact ⟨hlt, hle.le, hfill⟩

end Tree

section Row

variable {parent : ℕ → Option ℕ} {row : List ℕ} {l : ℕ}

/-- Among the rows before `k` the list has with each row its parent. -/
def ClosedBelow (parent : ℕ → Option ℕ) (k : ℕ) (row : List ℕ) : Prop :=
  ∀ x ∈ row, ∀ p, parent x = some p → p < k → p ∈ row

theorem ClosedBelow.mem_of_above (h : ClosedBelow parent k row) (htree : IsTree a parent l) (hi : i ∈ row)
    (hij : Above parent i j) (hj : j < k) : j ∈ row := by
  induction hij with
  | refl => exact hi
  | tail _ hp ih => exact h _ (ih ((htree _ _ hp).1.trans hj)) _ hp hj

theorem closedBelow_append (hclosed : ∀ x ∈ row, ∀ p, parent x = some p → p < k → p ∈ row ∨ p = i)
    (hparent : ∀ p, parent i = some p → p < k → p ∈ row ++ [i]) : ClosedBelow parent k (row ++ [i]) := by
  intro x hx p hp hpk
  rcases List.mem_append.1 hx with hx | hx
  · exact List.mem_append.2 ((hclosed x hx p hp hpk).imp_right List.mem_singleton.2)
  · rw [List.mem_singleton.1 hx] at hp
    exact hparent p hp hpk

theorem ClosedBelow.mem_append_iff (h : ClosedBelow parent k (row ++ [i])) (htree : IsTree a parent l) (hi : i < k)
    {y : ℕ} : y ∈ row ++ [i] ↔ y ∈ row ∨ Above parent i y ∧ y < k := by
  constructor
  · intro hy
    rcases List.mem_append.1 hy with hy | hy
    · exact .inl hy
    · rw [List.mem_singleton.1 hy]
      exact .inr ⟨.refl, hi⟩
  · rintro (hy | ⟨hiy, hy⟩)
    · exact List.mem_append_left _ hy
    · exact h.mem_of_above htree (List.mem_append_right _ (List.mem_singleton_self i)) hiy hy

/-- A row leads to itself and to what its parent leads to. -/
theorem above_iff_of_parent {p y : ℕ} (hp : parent i = some p) : Above parent i y ↔ y = i ∨ Above parent p y := by
  constructor
  · intro h
    rcases Relation.ReflTransGen.cases_head h with heq | ⟨q, hq, hqy⟩
    · exact .inl heq.symm
    · rw [hp, Option.some.injEq] at hq
      exact .inr (hq ▸ hqy)
  · rintro (rfl | h)
    · exact .refl
    · exact .head hp h

/-- The path from a row that is not in the list yet ends, and adds all rows before `k` that the row leads to. -/
theorem addPath_ok (htree : IsTree a parent l) (hk : k ≤ n) (steps : ℕ) (hsteps : k - i ≤ steps) (hi : i < k)
    (hnot : i ∉ row) (hnodup : row.Nodup) (hclosed : ∀ x ∈ row, ∀ p, parent x = some p → p < k → p ∈ row ∨ p = i) :
    ∃ row', addPath (table n parent) k steps row i = .ok row' ∧ row'.Nodup ∧ ClosedBelow parent k row' ∧
      ∀ y, y ∈ row' ↔ y ∈ row ∨ Above parent i y ∧ y < k := by
  induction steps generalizing i row with
  | zero => omega
  | succ steps ih =>
      have hnodup' : (row ++ [i]).Nodup := List.nodup_append.2 ⟨hnodup, List.nodup_singleton i,
        fun x hx y hy h => hnot (List.mem_singleton.1 hy ▸ h ▸ hx)⟩
      -- the list ends here if the parent of the row is in it or comes too late
      have hstop : (∀ p, parent i = some p → p < k → p ∈ row ++ [i]) →
          ClosedBelow parent k (row ++ [i]) ∧ ∀ y, y ∈ row ++ [i] ↔ y ∈ row ∨ Above parent i y ∧ y < k :=
        fun hparent =>
          have hends := closedBelow_append hclosed hparent
          ⟨hends, fun _ => hends.mem_append_iff htree hi⟩
      rw [addPath]
      simp only [fetch_table (hi.trans_le hk), ok_bind]
      cases hp : parent i with
      | none => exact ⟨_, rfl, hnodup', hstop fun p hp' => by rw [hp] at hp'; cases hp'⟩
      | some p =>
          have hip := (htree i p hp).1
          by_cases hend : k ≤ p ∨ p ∈ row ++ [i]
          · refine ⟨_, by dsimp only; rw [if_pos (by simpa using hend)]; rfl, hnodup', hstop fun q hq hqk => ?_⟩
            rw [hp, Option.some.injEq] at hq
            exact hq ▸ hend.resolve_left (by omega)
          · rw [not_or, not_le] at hend
            dsimp only
            rw [if_neg (by simpa using ⟨hend.1, by simpa using hend.2⟩)]
            obtain ⟨row', hok, hnodup₁, hclosed₁, hmem⟩ := ih (i := p) (by omega) hend.1 hend.2
              hnodup' (fun x hx q hq hqk => by
                rcases List.mem_append.1 hx with hx | hx
                · exact .inl (List.mem_append.2 ((hclosed x hx q hq hqk).imp_right List.mem_singleton.2))
                · rw [List.mem_singleton.1 hx, hp, Option.some.injEq] at hq
                  exact .inr hq.symm)
            refine ⟨row', hok, hnodup₁, hclosed₁, fun y => (hmem y).trans ?_⟩
            rw [List.mem_append, List.mem_singleton, or_assoc, above_iff_of_parent hp, or_and_right]
            exact or_congr_right (or_congr_left (and_iff_left_of_imp fun hy => hy ▸ hi).symm)

theorem rowOf_ok (htree : IsTree a parent l) (hk : k ≤ n) {coupledRows : List ℕ} (hle : ∀ i ∈ coupledRows, i ≤ k) :
    ∃ row, rowOf (table n parent) k coupledRows = .ok row ∧ row.Pairwise (· < ·) ∧
      ∀ y, y ∈ row ↔ ∃ i ∈ coupledRows, i ≠ k ∧ Above parent i y ∧ y < k := by
  obtain ⟨row, hrow, hnodup, hclosed, hmem⟩ := foldlM_succeeds (l := coupledRows) (b := [])
    (f := fun row i => if i == k || row.contains i then return row else addPath (table n parent) k n row i)
    (fun done row => row.Nodup ∧ ClosedBelow parent k row ∧
      ∀ y, y ∈ row ↔ ∃ i ∈ done, i ≠ k ∧ Above parent i y ∧ y < k)
    ⟨List.nodup_nil, fun x hx => (nomatch hx), by simp⟩ (by
      rintro done i rest row hdone ⟨hnodup, hclosed, hmem⟩
      have hik := hle i (by rw [hdone]; simp)
      by_cases hskip : i = k ∨ i ∈ row
      · refine ⟨row, if_pos (by simpa using hskip), hnodup, hclosed, fun y => ?_⟩
        rw [hmem]
        constructor
        · rintro ⟨x, hx, h⟩
          exact ⟨x, List.mem_append_left _ hx, h⟩
        · rintro ⟨x, hx, hne, hxy, hyk⟩
          rcases List.mem_append.1 hx with hx | hx
          · exact ⟨x, hx, hne, hxy, hyk⟩
          · rw [List.mem_singleton.1 hx] at hne hxy
            exact (hmem y).1 (hclosed.mem_of_above htree (hskip.resolve_left hne) hxy hyk)
      · rw [not_or] at hskip
        obtain ⟨row', hok, hnodup', hclosed', hmem'⟩ := addPath_ok htree hk n (by omega)
          (lt_of_le_of_ne hik hskip.1) hskip.2 hnodup fun x hx p hp hpk => Or.inl (hclosed x hx p hp hpk)
        refine ⟨row', (if_neg (by simpa using hskip)).trans hok, hnodup', hclosed', fun y => ?_⟩
        rw [hmem', hmem]
        simp only [List.mem_append, List.mem_singleton, or_and_right, exists_or, exists_eq_left]
        exact or_congr_right ⟨fun h => ⟨hskip.1, h⟩, fun h => h.2⟩)
  refine ⟨row.mergeSort, ?_, ascending_mergeSort hnodup, fun y => by rw [List.mem_mergeSort, hmem]⟩
  rw [rowOf, size_table, hrow]
  rfl

end Row

section Columns

variable {count : ℕ → ℕ} {cols : ℕ → List ℕ} {s : ColumnFill}

/-- The position of the first row of column `j`, where column `i` has `count i` rows. -/
def colOffset (count : ℕ → ℕ) (j : ℕ) : ℕ :=
  ∑ i ∈ Finset.range j, count i

theorem colOffset_succ (count : ℕ → ℕ) (j : ℕ) : colOffset count (j + 1) = colOffset count j + count j :=
  Finset.sum_range_succ ..

theorem colOffset_le (count : ℕ → ℕ) (h : i ≤ j) : colOffset count i ≤ colOffset count j :=
  Finset.sum_le_sum_of_subset (Finset.range_subset_range.2 h)

theorem partialSums_table (n : ℕ) (count : ℕ → ℕ) :
    SparseMatrix.partialSums (table n count) = table (n + 1) (colOffset count) := by
  obtain ⟨hsize, hsum⟩ := SparseMatrix.partialSums_spec (table n count)
  rw [size_table] at hsize hsum
  refine eq_table hsize fun i hi => (hsum i (by omega)).trans (congrArg some ?_)
  have hlist : (table n count).toList = (List.range n).map count := by
    rw [← toArray_map_range]
  rw [hlist, ← List.map_take, List.take_range, min_eq_left (by omega), colOffset, Finset.sum_range,
    ← List.sum_ofFn, List.ofFn_eq_map, ← List.map_coe_finRange_eq_range, List.map_map]
  rfl

/-- Each column has the given rows at the first positions of its room, and its next free position after them. -/
structure Stored (n : ℕ) (count : ℕ → ℕ) (cols : ℕ → List ℕ) (s : ColumnFill) : Prop where
  size_rowIndex : s.rowIndex.size = colOffset count n
  next : s.next = table n fun j => colOffset count j + (cols j).length
  room : ∀ j < n, (cols j).length ≤ count j
  stored : ∀ j < n, ∀ t k, (cols j)[t]? = some k → s.rowIndex[colOffset count j + t]? = some k

theorem Stored.place_ok (h : Stored n count cols s) (k : ℕ) (hj : j < n) (hroom : (cols j).length < count j) :
    ∃ s', s.place k j = .ok s' ∧ Stored n count (Function.update cols j (cols j ++ [k])) s' := by
  obtain ⟨hsize, hnext, hle, hstored⟩ := h
  have hdest : colOffset count j + (cols j).length < s.rowIndex.size := by
    have := colOffset_succ count j
    have := colOffset_le count (show j + 1 ≤ n from hj)
    omega
  refine ⟨_, by
    rw [ColumnFill.place, hnext, fetch_table hj, ok_bind, store_of_lt' _ hdest, ok_bind, store_table _ hj, ok_bind]
    rfl, by simp [hsize], table_congr fun i _ => ?_, fun i hi => ?_, fun i hi t r hr => ?_⟩
  · by_cases hij : i = j
    · rw [hij, Function.update_self, Function.update_self, List.length_append, List.length_singleton, Nat.add_assoc]
    · rw [Function.update_of_ne hij, Function.update_of_ne hij]
  · by_cases hij : i = j
    · rw [hij, Function.update_self, List.length_append, List.length_singleton]
      omega
    · rw [Function.update_of_ne hij]
      exact hle i hi
  · rw [Array.getElem?_setIfInBounds]
    by_cases hij : i = j
    · rw [hij, Function.update_self] at hr
      rw [hij]
      rcases Nat.lt_or_ge t (cols j).length with ht | ht
      · rw [List.getElem?_append_left ht] at hr
        rw [if_neg (by omega)]
        exact hstored j hj t r hr
      · have hlt := (List.getElem?_eq_some_iff.1 hr).1
        rw [List.length_append, List.length_singleton] at hlt
        obtain rfl : t = (cols j).length := by omega
        rw [List.getElem?_concat_length] at hr
        rw [if_pos rfl, if_pos hdest, hr]
    · rw [Function.update_of_ne hij] at hr
      have ht := (List.getElem?_eq_some_iff.1 hr).1
      have := hle i hi
      -- the rooms of two columns have no position in common
      rw [if_neg fun heq => by
        rcases Nat.lt_or_gt_of_ne hij with hlt | hlt
        · have := colOffset_succ count i
          have := colOffset_le count (show i + 1 ≤ j from hlt)
          omega
        · have := colOffset_succ count j
          have := colOffset_le count (show j + 1 ≤ i from hlt)
          omega]
      exact hstored i hi t r hr

theorem Stored.placeRow_ok (h : Stored n count cols s) (k : ℕ) {row : List ℕ} (hrow : row.Nodup)
    (hroom : ∀ j ∈ row, j < n ∧ (cols j).length < count j) :
    ∃ s', row.foldlM (ColumnFill.place k) s = .ok s' ∧
      Stored n count (fun j => if j ∈ row then cols j ++ [k] else cols j) s' := by
  induction row generalizing cols s with
  | nil => exact ⟨s, rfl, by simpa using h⟩
  | cons j row ih =>
      rw [List.nodup_cons] at hrow
      obtain ⟨s₁, hok, h₁⟩ := h.place_ok k (hroom j List.mem_cons_self).1 (hroom j List.mem_cons_self).2
      obtain ⟨s', hok', h'⟩ := ih h₁ hrow.2 fun i hi => by
        have hij : i ≠ j := fun hij => hrow.1 (hij ▸ hi)
        rw [Function.update_of_ne hij]
        exact hroom i (List.mem_cons_of_mem j hi)
      refine ⟨s', by rw [List.foldlM_cons, hok, ok_bind, hok'], ?_⟩
      convert h' using 2 with i
      by_cases hij : i = j
      · rw [hij, if_pos List.mem_cons_self, if_neg hrow.1, Function.update_self]
      · rw [Function.update_of_ne hij]
        simp only [List.mem_cons, hij, false_or]

/-- A column that has as many rows as it has room for is the range of its positions. -/
theorem Stored.slice_ok (h : Stored n count cols s) (hj : j < n) (hfull : (cols j).length = count j) :
    ∃ room, slice s.rowIndex (colOffset count j) (colOffset count (j + 1)) = .ok room ∧ room.toList = cols j := by
  have hle := colOffset_le count (show j + 1 ≤ n from hj)
  have hsucc := colOffset_succ count j
  refine ⟨_, by rw [slice, if_pos ⟨by omega, by rw [h.size_rowIndex]; exact hle⟩], List.ext_getElem? fun t => ?_⟩
  rw [Array.getElem?_toList, Array.getElem?_extract]
  rcases Nat.lt_or_ge t (cols j).length with ht | ht
  · have hget := List.getElem?_eq_getElem ht
    rw [if_pos (by rw [h.size_rowIndex]; omega), h.stored j hj t _ hget, hget]
  · rw [if_neg (by omega), List.getElem?_eq_none ht]

/-- The columns of the pattern from its rows and the numbers of rows in its columns. -/
theorem columnsOf_ok (s : Fill) : columnsOf (table s.size fun j => (s.column j).length) (table s.size s.row) =
    .ok (table s.size s.column) := by
  set count := fun j => (s.column j).length with hcount
  have hprefix : ∀ {k : ℕ}, k < s.size → ∀ j, s.column j =
      (((List.range k).filter fun i => s.has i j) ++ if s.has k j then [k] else []) ++
        (List.range' (k + 1) (s.size - k - 1)).filter fun i => s.has i j := by
    intro k hk j
    rw [Fill.column, range_split hk, List.filter_append, List.filter_cons, List.append_assoc]
    split_ifs <;> rfl
  -- after the rows before `k` each column has those of its rows that come before `k`
  obtain ⟨filled, hfilled, hstored⟩ := foldlM_range (n := s.size)
    (f := fun c k => do (← fetch (table s.size s.row) k).foldlM (ColumnFill.place k) c)
    (fun k c => Stored s.size count (fun j => (List.range k).filter fun i => s.has i j) c)
    (b := ⟨Array.replicate (colOffset count s.size) 0, table s.size (colOffset count)⟩)
    ⟨by simp, by simp, by simp, by simp⟩ (by
      intro k hk c hc
      obtain ⟨c', hok, hc'⟩ := hc.placeRow_ok k ((s.row_ascending k).imp Nat.ne_of_lt) fun j hj => by
        have hhas := Fill.mem_row.1 hj
        refine ⟨(s.lt_of_has hhas).1.trans hk, ?_⟩
        simp only [hcount, hprefix hk j, hhas, if_true, List.length_append, List.length_singleton]
        omega
      refine ⟨c', by rw [fetch_table hk, ok_bind, hok], ?_⟩
      convert hc' using 2 with j
      rw [List.range_succ, List.filter_append, List.filter_cons, List.filter_nil]
      simp only [Fill.mem_row]
      split_ifs <;> simp)
  have hslice : ∀ j < s.size, ∃ room, slice filled.rowIndex (colOffset count j) (colOffset count (j + 1)) = .ok room ∧
      room.toList = s.column j := fun j hj => hstored.slice_ok hj rfl
  rw [columnsOf, partialSums_table]
  simp only [size_table]
  have hback : ((table (s.size + 1) (colOffset count)).back?).getD 0 = colOffset count s.size := by
    rw [Array.back?_eq_getElem?, size_table, Nat.add_sub_cancel, getElem?_table_of_lt (Nat.lt_succ_self _),
      Option.getD_some]
  have hpop : (table (s.size + 1) (colOffset count)).pop = table s.size (colOffset count) :=
    eq_table (by simp) fun i hi => by
      rw [Array.getElem?_pop, size_table, if_pos (by omega), getElem?_table_of_lt (by omega)]
  rw [hback, hpop, hfilled, ok_bind, mapM_of_forall (g := s.column) fun j hj => ?_, ok_bind]
  · exact congrArg Except.ok (toArray_map_range ..)
  · have hj := List.mem_range.1 hj
    obtain ⟨room, hok, hlist⟩ := hslice j hj
    rw [fetch_table (by omega), ok_bind, fetch_table (by omega), ok_bind, hok, ok_bind, hlist]
    rfl

end Columns

open Classical in
/-- The least pattern of a matrix. -/
noncomputable def fill (a : SparseMatrix α) (ha : a.Formatted) : Fill where
  size := a.nrows
  has i j := decide (Filled a i j)
  lt_of_has h := by
    have h := of_decide_eq_true h
    exact ⟨h.lt, h.row_lt ha⟩
  closed hi hk hik := decide_eq_true (.fill (of_decide_eq_true hi) (of_decide_eq_true hk) hik)

section Patterns

variable {ha : a.Formatted}

open Classical in
theorem fill_has_iff : (fill a ha).has i j = true ↔ Filled a i j :=
  decide_eq_true_iff

variable (ha) in
/-- The coupled rows are found, the elimination tree has the number of rows of each column, and its paths are the rows
of the least pattern. -/
theorem walks_ok (hT : SparseMatrix.IsTranspose a aT) : ∃ rows parent,
    (List.range a.nrows).mapM (coupled a aT) = .ok ((List.range a.nrows).map rows) ∧
      eliminationTree (table a.nrows rows) =
        .ok (table a.nrows parent, table a.nrows fun j => ((fill a ha).column j).length) ∧
      IsTree a parent a.nrows ∧
      ∀ k < a.nrows, rowOf (table a.nrows parent) k (rows k) = .ok ((fill a ha).row k) := by
  have hcoupled : ∀ k, ∃ l, k < a.nrows → coupled a aT k = .ok l ∧ ∀ i, i ∈ l ↔ i = k ∨ i < k ∧ a.Coupled i k := by
    intro k
    by_cases hk : k < a.nrows
    · obtain ⟨l, hl, -, hmem⟩ := coupled_ok ha hT hk
      exact ⟨l, fun _ => ⟨hl, hmem⟩⟩
    · exact ⟨[], fun h => absurd h hk⟩
  choose rows hrows using hcoupled
  obtain ⟨parent, hparent, htree, habove⟩ := eliminationTree_ok (n := a.nrows) fun k hk => (hrows k hk).2
  refine ⟨rows, parent, mapM_of_forall fun k hk => (hrows k (List.mem_range.1 hk)).1, hparent, htree, fun k hk => ?_⟩
  obtain ⟨row, hok, hasc, hmem⟩ := rowOf_ok htree hk.le fun i hi => by
    rcases ((hrows k hk).2 i).1 hi with rfl | hi <;> omega
  rw [hok]
  refine congrArg Except.ok (eq_of_ascending hasc (filter_range_ascending _ _) fun y => ?_)
  rw [hmem, Fill.mem_row, fill_has_iff, filled_iff (fun k hk => (hrows k hk).2) htree habove hk]

variable (ha) in
/-- The rows of the least pattern are found, and the number of rows in each column. -/
theorem rowPatterns_ok (hT : SparseMatrix.IsTranspose a aT) : rowPatterns a aT =
    .ok (table a.nrows (fill a ha).row, table a.nrows fun j => ((fill a ha).column j).length) := by
  obtain ⟨rows, parent, hrows, hparent, -, hrow⟩ := walks_ok ha hT
  rw [rowPatterns, hrows, ok_bind, toArray_map_range, hparent, ok_bind]
  dsimp only
  rw [mapM_of_forall (g := fun p => (fill a ha).row p.2) fun p hp => ?_, ok_bind]
  · refine congrArg Except.ok (Prod.ext ?_ rfl)
    have hmap : ((List.range a.nrows).map rows).zipIdx.map (fun p => (fill a ha).row p.2) =
        (((List.range a.nrows).map rows).zipIdx.map Prod.snd).map (fill a ha).row := by
      rw [List.map_map]
      rfl
    dsimp only
    rw [hmap, List.zipIdx_map_snd, List.length_map, List.length_range, ← List.range_eq_range', toArray_map_range]
  · obtain ⟨i, hi, rfl⟩ := List.mem_iff_getElem.1 hp
    have hlt : i < a.nrows := by simpa using hi
    simpa using hrow i hlt

variable (ha) in
theorem covers_fill : (fill a ha).Covers a where
  size_eq := rfl
  coupled _ _ j hi hk hik := fill_has_iff.2 (.coupled ⟨j, hi, hk⟩ hik)

end Patterns

end FillPattern

namespace LdlFactor

variable [Scalar α] {a aT : SparseMatrix α}

theorem check_of_ofMatrix {f : LdlFactor α} (h : ofMatrix a aT = .ok (.ok f)) : a.check = .ok () := by
  unfold ofMatrix at h
  split at h
  · simp at h
  · assumption

/-- A matrix that passes the test of its format has a factor, with the least pattern and without active rows. -/
theorem ofMatrix_ok (hcheck : a.check = .ok ()) (hT : SparseMatrix.IsTranspose a aT) :
    ofMatrix a aT = .ok (.ok ((FillPattern.fill a (SparseMatrix.formatted_of_check hcheck)).factor (fun _ => false)
      (fun _ _ => 0) (fun _ => 1) 0 (fun _ => 0) fun _ => 0)) := by
  have ha := SparseMatrix.formatted_of_check hcheck
  obtain ⟨n, hn⟩ : ∃ n, a.nnz = .ok n := ⟨_, ha.fetch_start le_rfl⟩
  rw [ofMatrix, hcheck]
  simp only [hT.nrows, hT.ncols, ne_eq, not_true_eq_false, or_self, if_false, hT.nnz_eq ha, hn, ok_bind,
    FillPattern.rowPatterns_ok ha hT]
  refine bind_eq_ok_iff.2 ⟨_, FillPattern.columnsOf_ok (FillPattern.fill a ha), ?_⟩
  simp only [map_table, replicate_eq_table, Fill.factor, FactorColumn.ofRows, List.filter_false, List.map_nil,
    Bool.not_false, List.filter_true]
  rfl

end LdlFactor

end PolyProjection
