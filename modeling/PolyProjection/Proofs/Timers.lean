import Mathlib
import PolyProjection.Timers
import PolyProjection.Proofs.Checked

/-! How deep timers nest. A timer enters right below those that run, so no tree of timers grows beyond the deepest
nesting of the calls, and the lines of the timers are within the count of levels. -/

namespace PolyProjection

namespace Timer

mutual

/-- How many levels of timers there are, the timer itself included. -/
def levels : Timer → ℕ
  | node _ _ children => levelsOf children + 1

def levelsOf : List Timer → ℕ
  | [] => 0
  | t :: ts => max t.levels (levelsOf ts)

end

variable {ts : List Timer} {key : String} {n : ℕ}

theorem levels_eq (t : Timer) : t.levels = levelsOf t.children + 1 := by
  cases t
  rfl

theorem levelsOf_le_iff : levelsOf ts ≤ n ↔ ∀ t ∈ ts, t.levels ≤ n := by
  induction ts with
  | nil => simp [levelsOf]
  | cons t ts ih => simp [levelsOf, ih]

theorem levelsOf_add_le (key : String) (ts : List Timer) : levelsOf (add key ts) ≤ max (levelsOf ts) 1 := by
  unfold add
  split_ifs
  · exact le_max_left _ _
  · refine levelsOf_le_iff.2 fun t ht => ?_
    rcases List.mem_append.1 ht with ht | ht
    · exact (levelsOf_le_iff.1 le_rfl t ht).trans (le_max_left _ _)
    · rw [List.mem_singleton.1 ht]
      exact le_max_right _ _

theorem levelsOf_complete_le (key : String) (ts : List Timer) : levelsOf (complete key ts) ≤ levelsOf ts := by
  refine levelsOf_le_iff.2 fun t ht => ?_
  obtain ⟨u, hu, rfl⟩ := List.mem_map.1 ht
  refine le_trans ?_ (levelsOf_le_iff.1 le_rfl u hu)
  split_ifs
  · rw [levels_eq, levels_eq u]
    rfl
  · exact le_rfl

/-- A change at the end of a path adds no level beyond those it may add below the path. -/
theorem levelsOf_atPath_le {f : List Timer → List Timer} (hf : ∀ us, levelsOf (f us) ≤ max (levelsOf us) n)
    (path : List String) (ts : List Timer) : levelsOf (atPath f path ts) ≤ max (levelsOf ts) (path.length + n) := by
  induction path generalizing ts with
  | nil => simpa [atPath] using hf ts
  | cons key rest ih =>
      refine levelsOf_le_iff.2 fun t ht => ?_
      obtain ⟨u, hu, rfl⟩ := List.mem_map.1 ht
      have hlevels := levelsOf_le_iff.1 le_rfl u hu
      split_ifs
      · have hbelow := ih u.children
        rw [levels_eq] at hlevels
        change levelsOf (atPath f rest u.children) + 1 ≤ _
        rw [List.length_cons]
        omega
      · exact hlevels.trans (le_max_left _ _)

end Timer

namespace Timers

open Timer

/-- The timers that run are the same, and at most `n` levels of timers were added below them. -/
structure Nests (n : ℕ) (t t' : Timers) : Prop where
  stack : t'.stack = t.stack
  levels : levelsOf t'.roots ≤ max (levelsOf t.roots) (t.stack.length + n)

variable {t t' t'' : Timers} {n k : ℕ} {key : String}

theorem nests_of_eq (h : t' = t) : Nests n t t' := by
  subst h
  exact ⟨rfl, le_max_left _ _⟩

theorem Nests.trans (h : Nests n t t') (h' : Nests n t' t'') : Nests n t t'' where
  stack := h'.stack.trans h.stack
  levels := by
    have hlevels := h.levels
    have hlevels' := h'.levels
    rw [h.stack] at hlevels'
    omega

/-- What runs under a timer adds its own levels and one for the timer. -/
theorem Nests.timed (h : Nests n (t.start key) t') : Nests (n + 1) t t'.stop := by
  have hstack : t'.stack = t.stack ++ [key] := h.stack
  have hstop : t'.stop = ⟨t.stack, atPath (complete key) t.stack t'.roots⟩ := by
    simp [stop, hstack]
  have hstart : levelsOf (t.start key).roots ≤ max (levelsOf t.roots) (t.stack.length + 1) := by
    refine (levelsOf_atPath_le (levelsOf_add_le key) _ _).trans ?_
    split_ifs
    · exact le_rfl
    · exact max_le_max le_rfl (Nat.add_le_add_right (Nat.zero_le _) 1)
  have hbelow := levelsOf_atPath_le (n := 0) (fun us => (levelsOf_complete_le key us).trans (le_max_left _ _)) t.stack
    t'.roots
  have hlevels := h.levels
  rw [show (t.start key).stack.length = t.stack.length + 1 by simp [start]] at hlevels
  exact ⟨by rw [hstop], by rw [hstop]; dsimp only; omega⟩

mutual

theorem linesOf_ok (depth : ℕ) (t : Timer) (h : depth + t.levels ≤ maxDepth) : ∃ lines, linesOf depth t = .ok lines := by
  cases t with
  | node name completed children =>
      rw [Timer.levels] at h
      obtain ⟨groups, hgroups⟩ := groupsOf_ok (depth + 1) children (by omega)
      rw [linesOf, require_of_true (decide_eq_true (by omega)), ok_bind, hgroups]
      exact ⟨_, rfl⟩

theorem groupsOf_ok (depth : ℕ) (ts : List Timer) (h : depth + levelsOf ts ≤ maxDepth) :
    ∃ groups, groupsOf depth ts = .ok groups := by
  cases ts with
  | nil => exact ⟨[], by rw [groupsOf]; rfl⟩
  | cons t ts =>
      rw [levelsOf] at h
      obtain ⟨lines, hlines⟩ := linesOf_ok depth t (by omega)
      obtain ⟨groups, hgroups⟩ := groupsOf_ok depth ts (by omega)
      rw [groupsOf, hlines, ok_bind, hgroups]
      exact ⟨_, rfl⟩

end

/-- Timers that are not nested too deep can be listed. -/
theorem lines_ok (h : levelsOf t.roots ≤ maxDepth) : ∃ lines, t.lines = .ok lines := by
  obtain ⟨groups, hgroups⟩ := groupsOf_ok 0 t.roots (by omega)
  rw [lines, hgroups]
  exact ⟨_, rfl⟩

end Timers

end PolyProjection
