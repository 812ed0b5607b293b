import Mathlib
import PolyProjection.Proofs.Checked

/-! Arrays given by functions. On the array of the values of a function below a length the checked reads and
writes are those of the function, and a loop over the indices with a property is one over all indices. -/

namespace PolyProjection

variable {β γ : Type} {n : ℕ} {g g' : ℕ → β}

/-- The array of the values of `g` below `n`. -/
def table (n : ℕ) (g : ℕ → β) : Array β :=
  (Array.range n).map g

@[simp] theorem size_table (n : ℕ) (g : ℕ → β) : (table n g).size = n := by
  rw [table, Array.size_map, Array.size_range]

theorem getElem?_table (n : ℕ) (g : ℕ → β) (i : ℕ) : (table n g)[i]? = if i < n then some (g i) else none := by
  rw [table, Array.getElem?_map]
  by_cases hi : i < n
  · rw [if_pos hi, Array.getElem?_eq_getElem (by simpa using hi), Array.getElem_range]
    rfl
  · rw [if_neg hi, Array.getElem?_eq_none (by simpa using hi)]
    rfl

theorem getElem?_table_of_lt {i : ℕ} (hi : i < n) : (table n g)[i]? = some (g i) := by
  rw [getElem?_table, if_pos hi]

theorem getD_table_of_lt {i : ℕ} (hi : i < n) (d : β) : (table n g).getD i d = g i := by
  rw [Array.getD_eq_getD_getElem?, getElem?_table_of_lt hi, Option.getD_some]

/-- An array is a table if it has the length and the entries of one. -/
theorem eq_table {xs : Array β} (hsize : xs.size = n) (h : ∀ i < n, xs[i]? = some (g i)) : xs = table n g := by
  refine Array.ext (by rw [hsize, size_table]) fun i hi hi' => Option.some.inj ?_
  rw [← Array.getElem?_eq_getElem, ← Array.getElem?_eq_getElem, h i (hsize ▸ hi),
    getElem?_table_of_lt (hsize ▸ hi)]

theorem eq_table_getD (xs : Array β) (d : β) : xs = table xs.size fun i => xs[i]?.getD d :=
  eq_table rfl fun i hi => by rw [Array.getElem?_eq_getElem hi, Option.getD_some]

theorem table_getD (xs : Array β) (d : β) : table xs.size (fun i => xs.getD i d) = xs :=
  (eq_table rfl fun i hi => by rw [Array.getD_eq_getD_getElem?, Array.getElem?_eq_getElem hi, Option.getD_some]).symm

theorem getD_of_getElem? {xs : Array β} {k : ℕ} {d x : β} (h : xs[k]? = some x) : xs.getD k d = x := by
  rw [Array.getD_eq_getD_getElem?, h, Option.getD_some]

theorem setIfInBounds_getD {xs : Array β} {k : ℕ} {d : β} (hk : k < xs.size) (x : β) :
    (fun i => (xs.setIfInBounds k x).getD i d) = Function.update (fun i => xs.getD i d) k x := by
  funext i
  rw [Array.getD_eq_getD_getElem?, Array.getElem?_setIfInBounds, if_pos hk]
  by_cases hi : i = k
  · rw [if_pos hi.symm, hi, Function.update_self, Option.getD_some]
  · rw [if_neg (Ne.symm hi), Function.update_of_ne hi, Array.getD_eq_getD_getElem?]

theorem table_congr (h : ∀ i < n, g i = g' i) : table n g = table n g' :=
  eq_table (size_table n g) fun i hi => by rw [getElem?_table_of_lt hi, h i hi]

theorem toArray_map_range (n : ℕ) (g : ℕ → β) : ((List.range n).map g).toArray = table n g :=
  eq_table (by simp) fun i hi => by simp [hi]

theorem replicate_eq_table (n : ℕ) (x : β) : Array.replicate n x = table n fun _ => x :=
  eq_table Array.size_replicate fun i hi => by rw [Array.getElem?_replicate, if_pos hi]

theorem fetch_table {i : ℕ} (hi : i < n) : fetch (table n g) i = .ok (g i) :=
  fetch_eq_ok_iff.2 (getElem?_table_of_lt hi)

theorem store_table {i : ℕ} (x : β) (hi : i < n) :
    store (table n g) i x = .ok (table n (Function.update g i x)) := by
  rw [store_of_lt' x (by simpa using hi)]
  refine congrArg Except.ok (eq_table (by simp) fun k hk => ?_)
  rw [Array.getElem?_setIfInBounds, size_table, if_pos hi, getElem?_table_of_lt hk]
  by_cases hki : i = k
  · rw [if_pos hki, hki, Function.update_self]
  · rw [if_neg hki, Function.update_of_ne (Ne.symm hki)]

theorem adjust_table {i : ℕ} (f : β → β) (hi : i < n) :
    adjust (table n g) i f = .ok (table n (Function.update g i (f (g i)))) := by
  have hi' : i < (table n g).size := by simpa using hi
  have hget : (table n g)[i] = g i := by
    refine Option.some.inj ?_
    rw [← Array.getElem?_eq_getElem, getElem?_table_of_lt hi]
  rw [← store_table _ hi, adjust_of_lt f hi', store_of_lt _ hi', hget]

theorem map_table (f : β → γ) (n : ℕ) (g : ℕ → β) : (table n g).map f = table n fun i => f (g i) := by
  rw [table, Array.map_map]
  rfl

theorem mapIdx_table (f : ℕ → β → γ) (n : ℕ) (g : ℕ → β) :
    (table n g).mapIdx f = table n fun i => f i (g i) :=
  eq_table (by simp) fun i hi => by rw [Array.getElem?_mapIdx, getElem?_table_of_lt hi]; rfl

theorem mapM_table {f : β → Checked γ} {h : ℕ → γ} (hf : ∀ i < n, f (g i) = .ok (h i)) :
    (table n g).mapM f = .ok (table n h) := by
  have hlist : (table n g).toList.mapM f = .ok ((List.range n).map h) := by
    rw [table, Array.toList_map, Array.toList_range, mapM_eq_ok_iff, List.forall₂_map_left_iff,
      List.forall₂_map_right_iff, List.forall₂_same]
    exact fun i hi => hf i (List.mem_range.1 hi)
  rw [Array.mapM_eq_mapM_toList, hlist]
  refine congrArg Except.ok (Array.ext' ?_)
  rw [table, Array.toList_map, Array.toList_range]

/-- A loop over the items with a property is a loop over all items that passes over the others. -/
theorem foldlM_filter {ι σ : Type} (p : ι → Bool) (f : σ → ι → Checked σ) (l : List ι) (s : σ) :
    (l.filter p).foldlM f s = l.foldlM (fun s i => if p i then f s i else .ok s) s := by
  induction l generalizing s with
  | nil => rfl
  | cons i l ih =>
      rw [List.filter_cons, List.foldlM_cons]
      by_cases hi : p i = true
      · rw [if_pos hi, if_pos hi, List.foldlM_cons]
        exact congrArg _ (funext ih)
      · rw [if_neg hi, if_neg hi, ok_bind, ih]

theorem foldl_range {σ : Type} {f : σ → ℕ → σ} (P : ℕ → σ → Prop) {b : σ} (hb : P 0 b)
    (step : ∀ i < n, ∀ c, P i c → P (i + 1) (f c i)) : P n ((List.range n).foldl f b) := by
  induction n with
  | zero => exact hb
  | succ n ih =>
      rw [List.range_succ, List.foldl_append, List.foldl_cons, List.foldl_nil]
      exact step n (Nat.lt_succ_self n) _ (ih fun i hi => step i (hi.trans (Nat.lt_succ_self n)))

/-- A loop over the indices below `n` from the last one down. -/
theorem foldl_range_reverse {σ : Type} {f : σ → ℕ → σ} (P : ℕ → σ → Prop) {b : σ} (hb : P n b)
    (step : ∀ i < n, ∀ c, P (i + 1) c → P i (f c i)) : P 0 ((List.range n).reverse.foldl f b) := by
  induction n generalizing b with
  | zero => exact hb
  | succ n ih =>
      rw [List.range_succ, List.reverse_append, List.reverse_singleton, List.singleton_append, List.foldl_cons]
      exact ih (step n (Nat.lt_succ_self n) b hb) fun i hi => step i (hi.trans (Nat.lt_succ_self n))

/-- A loop over the indices below `n` keeps a statement about the indices done so far. -/
theorem foldlM_range {σ : Type} {f : σ → ℕ → Checked σ} (P : ℕ → σ → Prop) {b : σ} (hb : P 0 b)
    (step : ∀ i < n, ∀ c, P i c → ∃ c', f c i = .ok c' ∧ P (i + 1) c') :
    ∃ b', (List.range n).foldlM f b = .ok b' ∧ P n b' := by
  induction n with
  | zero => exact ⟨b, rfl, hb⟩
  | succ n ih =>
      obtain ⟨c, hc, hP⟩ := ih fun i hi => step i (hi.trans (Nat.lt_succ_self n))
      obtain ⟨b', hb', hP'⟩ := step n (Nat.lt_succ_self n) c hP
      refine ⟨b', ?_, hP'⟩
      rw [List.range_succ, List.foldlM_append, hc, ok_bind, List.foldlM_cons, hb']
      rfl

/-- A loop with a count follows the states that the items done so far lead to. -/
theorem foldlM_counted {ι : Type} {f : β × ℕ → ι → Checked (β × ℕ)} (state : List ι → β) {l : List ι} {count : ℕ}
    (step : ∀ done x rest count, l = done ++ x :: rest →
      ∃ count', f (state done, count) x = .ok (state (done ++ [x]), count')) :
    ∃ count', l.foldlM f (state [], count) = .ok (state l, count') := by
  obtain ⟨r, hr, hstate⟩ := foldlM_succeeds (f := f) (l := l) (fun done r => r.1 = state done)
    (show (state [], count).1 = state [] from rfl) (by
      rintro done x rest ⟨b, c⟩ hl rfl
      obtain ⟨c', hc'⟩ := step done x rest c hl
      exact ⟨_, hc', rfl⟩)
  exact ⟨r.2, hr.trans (congrArg Except.ok (Prod.ext hstate rfl))⟩

/-- A loop that changes the entries at given indices, each once. -/
theorem foldlM_adjust_table (h : ℕ → β → β) {is : List ℕ} (his : is.Nodup) (hn : ∀ i ∈ is, i < n) :
    is.foldlM (fun xs i => adjust xs i (h i)) (table n g) =
      .ok (table n fun i => if i ∈ is then h i (g i) else g i) := by
  induction is generalizing g with
  | nil => simp [pure, Except.pure]
  | cons i is ih =>
      rw [List.nodup_cons] at his
      rw [List.foldlM_cons, adjust_table _ (hn i List.mem_cons_self), ok_bind,
        ih his.2 fun k hk => hn k (List.mem_cons_of_mem i hk)]
      refine congrArg Except.ok (table_congr fun k _ => ?_)
      by_cases hk : k = i
      · rw [hk, if_neg his.1, if_pos List.mem_cons_self, Function.update_self]
      · simp only [List.mem_cons, hk, false_or, Function.update_of_ne hk]

end PolyProjection
