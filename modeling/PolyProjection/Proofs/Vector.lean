import Mathlib
import PolyProjection.Proofs.Checked
import PolyProjection.Proofs.Exact
import PolyProjection.Proofs.Table

/-! Vectors as functions of the index. A vector has the value zero outside its range, and the checked reads and
writes are those of the function. -/

namespace PolyProjection

set_option linter.unusedSectionVars false

variable {K : Type} [Field K] [LinearOrder K] [IsStrictOrderedRing K]

/-- The coordinate of a vector, zero outside its range. -/
def coord (x : Array K) (i : Nat) : K :=
  x[i]?.getD 0

theorem coord_eq_getElem {x : Array K} {i : Nat} (h : i < x.size) : coord x i = x[i] := by
  simp [coord, h]

theorem coord_of_size_le {x : Array K} {i : Nat} (h : x.size ≤ i) : coord x i = 0 := by
  simp [coord, h]

@[simp] theorem coord_replicate (n i : Nat) : coord (Array.replicate n (0 : K)) i = 0 := by
  rw [coord, Array.getElem?_replicate]
  split <;> rfl

@[simp] theorem coord_map_zero {β : Type} (x : Array β) (i : Nat) : coord (x.map fun _ => (0 : K)) i = 0 := by
  rw [coord, Array.getElem?_map]
  cases x[i]? <;> rfl

theorem coord_table {n i : ℕ} (f : ℕ → K) (hi : i < n) : coord (table n f) i = f i := by
  rw [coord, getElem?_table_of_lt hi, Option.getD_some]

/-- Beyond its range a table has the value zero, as any vector of its size. -/
theorem coord_table_eq {n i : ℕ} {f : ℕ → K} {x : Array K} (hx : x.size = n) (h : i < n → f i = coord x i) :
    coord (table n f) i = coord x i := by
  by_cases hi : i < n
  · rw [coord_table f hi, h hi]
  · rw [coord_of_size_le (by rw [size_table]; omega), coord_of_size_le (by omega)]

theorem coord_setIfInBounds (x : Array K) (i : Nat) (v : K) (k : Nat) :
    coord (x.setIfInBounds i v) k = if k = i ∧ i < x.size then v else coord x k := by
  rw [coord, coord, Array.getElem?_setIfInBounds]
  by_cases hk : k = i
  · by_cases hi : i < x.size
    · rw [if_pos hk.symm, if_pos hi, if_pos ⟨hk, hi⟩, Option.getD_some]
    · rw [if_pos hk.symm, if_neg hi, if_neg fun h => hi h.2, hk, Array.getElem?_eq_none (not_lt.1 hi)]
  · rw [if_neg fun h => hk h.symm, if_neg fun h => hk h.1]

theorem coord_setIfInBounds_add {x : Array K} {i : Nat} (hi : i < x.size) (v : K) (k : Nat) :
    coord (x.setIfInBounds i (coord x i + v)) k = coord x k + if k = i then v else 0 := by
  rw [coord_setIfInBounds]
  by_cases hk : k = i
  · rw [if_pos ⟨hk, hi⟩, if_pos hk, hk]
  · rw [if_neg fun h => hk h.1, if_neg hk, add_zero]

theorem coord_setIfInBounds_sub {x : Array K} {i : Nat} (hi : i < x.size) (v : K) (k : Nat) :
    coord (x.setIfInBounds i (coord x i - v)) k = coord x k - if k = i then v else 0 := by
  rw [sub_eq_add_neg, coord_setIfInBounds_add hi, sub_eq_add_neg, apply_ite Neg.neg, neg_zero]

theorem fetch_coord {x : Array K} {i : Nat} (h : i < x.size) : fetch x i = .ok (coord x i) := by
  rw [fetch_of_lt h, coord_eq_getElem h]

theorem fetch_eq_ok_coord_iff {x : Array K} {i : Nat} {v : K} :
    fetch x i = .ok v ↔ i < x.size ∧ v = coord x i := by
  constructor
  · intro h
    have hi := follow_lt h
    rw [fetch_coord hi, Except.ok.injEq] at h
    exact ⟨hi, h.symm⟩
  · rintro ⟨hi, rfl⟩
    exact fetch_coord hi

theorem adjust_eq_ok_iff {x y : Array K} {i : Nat} {f : K → K} :
    adjust x i f = .ok y ↔ i < x.size ∧ y = x.setIfInBounds i (f (coord x i)) := by
  unfold adjust
  split
  · rename_i h
    rw [Array.setIfInBounds, dif_pos h, Except.ok.injEq, coord_eq_getElem h]
    exact ⟨fun hy => ⟨h, hy.symm⟩, fun hy => hy.2.symm⟩
  · rename_i h
    exact ⟨fun hy => (nomatch hy), fun hy => absurd hy.1 h⟩

theorem adjust_coord {x : Array K} {i : Nat} (f : K → K) (h : i < x.size) :
    adjust x i f = .ok (x.setIfInBounds i (f (coord x i))) :=
  adjust_eq_ok_iff.2 ⟨h, rfl⟩

/-- Vectors of one length with the same coordinates are the same. -/
theorem ext_coord {x y : Array K} (hsize : x.size = y.size) (h : ∀ i < x.size, coord x i = coord y i) : x = y := by
  refine Array.ext hsize fun i hx hy => ?_
  rw [← coord_eq_getElem hx, ← coord_eq_getElem hy]
  exact h i hx

/-- A loop that changes one coordinate after the other, each by a rule that looks at no other coordinate. -/
theorem foldlM_pointwise {f : Array K → Nat → Checked (Array K)} (g : Nat → K → K) {is : List Nat}
    {x y : Array K} (h : is.foldlM f x = .ok y) (hnodup : is.Nodup)
    (step : ∀ i ∈ is, ∀ u u', u.size = x.size → f u i = .ok u' →
      u'.size = u.size ∧ ∀ k, coord u' k = if k = i then g i (coord u i) else coord u k) :
    y.size = x.size ∧ ∀ k, coord y k = if k ∈ is then g k (coord x k) else coord x k := by
  refine foldlM_reaches (fun done u => u.size = x.size ∧
    ∀ k, coord u k = if k ∈ done then g k (coord x k) else coord x k) h ⟨rfl, fun k => by simp⟩ ?_
  rintro done i rest u u' his ⟨hsize, hu⟩ hok
  obtain ⟨hsize', hu'⟩ := step i (by rw [his]; simp) u u' hsize hok
  have hi : i ∉ done := by
    rw [his] at hnodup
    exact fun hi => List.disjoint_of_nodup_append hnodup hi List.mem_cons_self
  refine ⟨hsize'.trans hsize, fun k => ?_⟩
  rw [hu' k]
  by_cases hk : k = i
  · rw [if_pos hk, if_pos (by simp [hk]), hu i, if_neg hi, hk]
  · rw [if_neg hk, hu k]
    simp [hk]

/-- Such a loop over indices of the vector is carried out. -/
theorem foldlM_pointwise_ok {f : Array K → Nat → Checked (Array K)} (g : Nat → K → K) {is : List Nat}
    {x : Array K} (hnodup : is.Nodup)
    (step : ∀ i ∈ is, ∀ u, u.size = x.size → ∃ u', f u i = .ok u' ∧ u'.size = u.size ∧
      ∀ k, coord u' k = if k = i then g i (coord u i) else coord u k) :
    ∃ y, is.foldlM f x = .ok y ∧ y.size = x.size ∧
      ∀ k, coord y k = if k ∈ is then g k (coord x k) else coord x k := by
  obtain ⟨y, hy, -⟩ := foldlM_succeeds (f := f) (l := is) (fun _ u => u.size = x.size) rfl (by
    intro done i rest u his hu
    obtain ⟨u', hu', hsize, -⟩ := step i (by rw [his]; simp) u hu
    exact ⟨u', hu', hsize.trans hu⟩)
  refine ⟨y, hy, foldlM_pointwise g hy hnodup fun i hi u u' hu hok => ?_⟩
  obtain ⟨v, hv, hsize, hcoord⟩ := step i hi u hu
  rw [hv, Except.ok.injEq] at hok
  subst hok
  exact ⟨hsize, hcoord⟩

theorem coord_set_step {u : Array K} {i : Nat} {v : K} (hi : i < u.size) :
    (u.setIfInBounds i v).size = u.size ∧
      ∀ k, coord (u.setIfInBounds i v) k = if k = i then v else coord u k := by
  refine ⟨by simp, fun k => ?_⟩
  rw [coord_setIfInBounds]
  by_cases hk : k = i
  · rw [if_pos ⟨hk, hi⟩, if_pos hk]
  · rw [if_neg fun h => hk h.1, if_neg hk]

theorem coord_keep_step (u : Array K) (i : Nat) :
    u.size = u.size ∧ ∀ k, coord u k = if k = i then coord u i else coord u k := by
  refine ⟨rfl, fun k => ?_⟩
  by_cases hk : k = i
  · rw [if_pos hk, hk]
  · rw [if_neg hk]

end PolyProjection
