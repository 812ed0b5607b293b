import Mathlib.Data.List.Chain
import Mathlib.Data.List.Nodup
import Mathlib.Data.List.Sort
import PolyProjection.Sorted

/-! Lists whose keys ascend: a test on the key that holds up to some point only cuts the list there, the members tell
the list, and the search by halving finds a number where it stands. -/

namespace PolyProjection

theorem isNondecreasing_iff {xs : List Nat} : isNondecreasing xs = true ↔ xs.IsChain (· ≤ ·) := by
  unfold isNondecreasing
  induction xs with
  | nil => simp [neighbours]
  | cons x xs ih =>
      cases xs with
      | nil => simp [neighbours]
      | cons y xs =>
          rw [neighbours, Bool.and_eq_true, decide_eq_true_eq, ih, List.isChain_cons_cons]

variable {α : Type} {f : α → Nat} {l : List α}

theorem takeWhile_lt_eq_filter (h : (l.map f).Pairwise (· < ·)) (b : Nat) :
    (l.takeWhile fun x => decide (f x < b)) = l.filter fun x => decide (f x < b) := by
  induction l with
  | nil => rfl
  | cons x l ih =>
      rw [List.map_cons, List.pairwise_cons] at h
      rw [List.takeWhile_cons, List.filter_cons]
      by_cases hx : f x < b
      · rw [if_pos (by simpa using hx), if_pos (by simpa using hx), ih h.2]
      · rw [if_neg (by simpa using hx), if_neg (by simpa using hx)]
        refine (List.filter_eq_nil_iff.2 fun y hy => ?_).symm
        have := h.1 (f y) (List.mem_map_of_mem hy)
        simp only [decide_eq_true_eq]
        omega

theorem dropWhile_lt_eq_filter (h : (l.map f).Pairwise (· < ·)) (b : Nat) :
    (l.dropWhile fun x => decide (f x < b)) = l.filter fun x => decide (b ≤ f x) := by
  induction l with
  | nil => rfl
  | cons x l ih =>
      rw [List.map_cons, List.pairwise_cons] at h
      rw [List.dropWhile_cons, List.filter_cons]
      by_cases hx : f x < b
      · rw [if_pos (by simpa using hx), if_neg (by simpa using hx), ih h.2]
      · rw [if_neg (by simpa using hx), if_pos (by simpa using hx)]
        congr 1
        refine (List.filter_eq_self.2 fun y hy => ?_).symm
        have := h.1 (f y) (List.mem_map_of_mem hy)
        simp only [decide_eq_true_eq]
        omega

/-- A list whose keys ascend is told by its members. -/
theorem eq_of_ascending_keys {l' : List α} (hl : (l.map f).Pairwise (· < ·)) (hl' : (l'.map f).Pairwise (· < ·))
    (h : ∀ x, x ∈ l ↔ x ∈ l') : l = l' := by
  rw [List.pairwise_map] at hl hl'
  have hirrefl : Std.Irrefl fun x y : α => f x < f y := ⟨fun x => Nat.lt_irrefl (f x)⟩
  have hantisymm : Std.Antisymm fun x y : α => f x < f y := ⟨fun x y hxy hyx => absurd hxy (Nat.lt_asymm hyx)⟩
  exact hl.eq_of_mem_iff hl' h

/-- An ascending list of numbers is told by its members. -/
theorem eq_of_ascending {xs ys : List Nat} (hxs : xs.Pairwise (· < ·)) (hys : ys.Pairwise (· < ·))
    (h : ∀ i, i ∈ xs ↔ i ∈ ys) : xs = ys :=
  hxs.eq_of_mem_iff hys h

theorem filter_range_ascending (p : Nat → Bool) (n : Nat) : ((List.range n).filter p).Pairwise (· < ·) :=
  List.pairwise_lt_range.filter p

/-- The indices below `n` in three parts: those before `i`, `i` itself, and those after it. -/
theorem range_split {i n : Nat} (hi : i < n) :
    List.range n = List.range i ++ i :: List.range' (i + 1) (n - i - 1) := by
  have h1 := List.range'_append_1 (s := 0) (m := i) (n := n - i)
  rw [Nat.zero_add, show i + (n - i) = n by omega, show n - i = (n - i - 1) + 1 by omega, List.range'_succ] at h1
  rw [List.range_eq_range', List.range_eq_range', ← h1]

/-- The first item with a property is the head of the items with it. -/
theorem find?_eq_head?_filter (p : α → Bool) : l.find? p = (l.filter p).head? :=
  List.head?_filter.symm

section Halving

variable {xs : Array Nat} {x : Nat}

/-- The search by halving keeps a position that it has in view. -/
theorem halve_eq (h : xs.toList.Pairwise (· < ·)) {base size p : Nat} (hx : xs[p]? = some x) (hbase : base ≤ p)
    (hp : p < base + size) (hsize : base + size ≤ xs.size) : halve xs x base size = p := by
  induction size using Nat.strong_induction_on generalizing base with
  | _ size ih =>
      rw [halve]
      split
      · have hmid : base + size / 2 < xs.size := by omega
        obtain ⟨hlt, hval⟩ := Array.getElem?_eq_some_iff.1 hx
        have hmono : ∀ i j (hi : i < xs.size) (hj : j < xs.size), i < j → xs[i] < xs[j] := fun i j hi hj hij => by
          exact List.pairwise_iff_getElem.1 h i j hi hj hij
        rw [Array.getD_eq_getD_getElem?, Array.getElem?_eq_getElem hmid, Option.getD_some]
        -- the half that is kept is the one with the position
        rcases lt_trichotomy (base + size / 2) p with hgt | heq | hlt'
        · have hle := hmono _ _ hmid hlt hgt
          rw [if_pos (by omega)]
          exact ih _ (by omega) hgt.le (by omega) (by omega)
        · subst heq
          rw [if_pos hval.le]
          exact ih _ (by omega) le_rfl (by omega) (by omega)
        · have hge := hmono _ _ hlt hmid hlt'
          rw [if_neg (by omega)]
          exact ih _ (by omega) hbase (by omega) (by omega)
      · omega

/-- In an ascending array a number is found where it stands. -/
theorem findSorted_eq_some_iff (h : xs.toList.Pairwise (· < ·)) {p : Nat} :
    findSorted xs x = some p ↔ xs[p]? = some x := by
  rw [findSorted]
  constructor
  · intro hfound
    split_ifs at hfound with hhalve
    rwa [← Option.some.inj hfound]
  · intro hx
    have hlt := (Array.getElem?_eq_some_iff.1 hx).1
    rw [halve_eq h hx (Nat.zero_le p) (by omega) (by omega), if_pos hx]

end Halving

end PolyProjection
