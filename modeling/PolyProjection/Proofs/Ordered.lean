import Mathlib
import PolyProjection.Proofs.Exact

/-! Scalars in a total order. Nothing is asked of their arithmetic, which may round, and two scalars that are equal
need not be the same, as with the two zeros of floating point; values without a place in the order are left out. -/

namespace PolyProjection

/-- Any two scalars compare, and the two other comparisons are those of the order. -/
class OrderedScalar (α : Type) [Scalar α] : Prop where
  le_total : ∀ a b : α, a ≤ b ∨ b ≤ a
  le_trans : ∀ a b c : α, a ≤ b → b ≤ c → a ≤ c
  lt_iff : ∀ a b : α, a < b ↔ ¬b ≤ a
  beq_iff : ∀ a b : α, (a == b) = true ↔ a ≤ b ∧ b ≤ a

instance Scalar.ordered_exact {K : Type} [Field K] [LinearOrder K] [IsStrictOrderedRing K] : OrderedScalar K where
  le_total := le_total
  le_trans := fun _ _ _ => le_trans
  lt_iff := fun _ _ => not_le.symm
  beq_iff := fun _ _ => decide_eq_true_iff.trans le_antisymm_iff

namespace OrderedScalar

variable {α : Type} [Scalar α] [OrderedScalar α]

theorem le_refl (a : α) : a ≤ a :=
  (le_total a a).elim id id

/-- Scalars are compared as elements of a linear order, one for all scalars that are equal. -/
theorem exists_linearOrder : ∃ (L : Type) (_ : LinearOrder L) (r : α → L),
    (∀ a b : α, a < b ↔ r a < r b) ∧ ∀ a b : α, (a == b) = true ↔ r a = r b := by
  let preorder : Preorder α :=
    { le_refl := le_refl
      le_trans := le_trans
      lt_iff_le_not_ge := fun a b => by
        rw [lt_iff a b]
        exact ⟨fun h => ⟨(le_total a b).resolve_right h, h⟩, fun h => h.2⟩ }
  have total : @Std.Total α (· ≤ ·) := ⟨le_total⟩
  refine ⟨Antisymmetrization α (· ≤ ·), inferInstance, toAntisymmetrization (· ≤ ·), fun a b => ?_, fun a b => ?_⟩
  · exact (toAntisymmetrization_lt_toAntisymmetrization_iff (a := a) (b := b)).symm
  · rw [beq_iff, le_antisymm_iff]
    exact Iff.rfl

end OrderedScalar

end PolyProjection
