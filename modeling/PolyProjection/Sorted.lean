/-! Ascending sequences of indices: the test for order, and the search by halving. -/

namespace PolyProjection

/-- Every two neighbours are related. -/
def neighbours (r : Nat → Nat → Bool) : List Nat → Bool
  | a :: b :: rest => r a b && neighbours r (b :: rest)
  | _ => true

/-- Each entry is larger than the one before it. -/
def isAscending (xs : List Nat) : Bool :=
  neighbours (fun a b => decide (a < b)) xs

/-- Each entry is at least as large as the one before it. -/
def isNondecreasing (xs : List Nat) : Bool :=
  neighbours (fun a b => decide (a ≤ b)) xs

/-- Keep the half of the `size` positions from `base` on that can hold `x`, until one position is left. -/
def halve (xs : Array Nat) (x base size : Nat) : Nat :=
  if h : 1 < size then
    halve xs x (if xs.getD (base + size / 2) 0 ≤ x then base + size / 2 else base) (size - size / 2)
  else base
  termination_by size
  decreasing_by omega

/-- A position of `x` in an ascending array. -/
def findSorted (xs : Array Nat) (x : Nat) : Option Nat :=
  let p := halve xs x 0 xs.size
  if xs[p]? = some x then some p else none

theorem isAscending_iff_pairwise {xs : List Nat} : isAscending xs = true ↔ xs.Pairwise (· < ·) := by
  unfold isAscending
  induction xs with
  | nil => simp [neighbours]
  | cons a rest ih =>
    cases rest with
    | nil => simp [neighbours]
    | cons b rest =>
      simp only [neighbours, Bool.and_eq_true, decide_eq_true_eq, ih, List.pairwise_cons]
      constructor
      · rintro ⟨hab, hb, hrest⟩
        refine ⟨fun c hc => ?_, hb, hrest⟩
        rcases List.mem_cons.1 hc with rfl | hc
        · exact hab
        · exact Nat.lt_trans hab (hb c hc)
      · rintro ⟨ha, hb, hrest⟩
        exact ⟨ha b List.mem_cons_self, hb, hrest⟩

end PolyProjection
