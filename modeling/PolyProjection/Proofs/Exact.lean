import Mathlib
import PolyProjection.Bound
import PolyProjection.Dense
import PolyProjection.Proofs.Checked
import PolyProjection.Settings

/-! Exact scalars. Every ordered field is a type of scalars, with its own operations and without infinite
values, so that the definitions can be reasoned about as if no operation rounded. -/

namespace PolyProjection

set_option linter.unusedSectionVars false

variable {K : Type} [Field K] [LinearOrder K] [IsStrictOrderedRing K]

instance Scalar.exact : Scalar K where
  decLt := inferInstance
  decLe := inferInstance
  beq := fun a b => decide (a = b)
  abs := fun x => |x|
  isPosInf := fun _ => false
  isNegInf := fun _ => false
  isDivisor := fun x => decide (x ≠ 0)

/-- Scalars with the operations of a field that divide by everything but zero. Their order does not matter. -/
class ExactScalar (K : Type) extends Field K, Scalar K where
  isDivisor_iff : ∀ x : K, isDivisor x = true ↔ x ≠ 0

attribute [instance (10)] ExactScalar.toField ExactScalar.toScalar

instance (priority := low) ExactScalar.ofOrdered : ExactScalar K :=
  { ‹Field K›, Scalar.exact with isDivisor_iff := fun _ => decide_eq_true_iff }

theorem ExactScalar.quotient_of_ne_zero {F : Type} [ExactScalar F] {a b : F} (h : b ≠ 0) :
    Scalar.quotient a b = .ok (a / b) := by
  have hdivisor : Scalar.isDivisor b = true := (ExactScalar.isDivisor_iff b).2 h
  rw [Scalar.quotient, require_of_true hdivisor]
  rfl

/-- Scalars with the operations of a commutative ring and an exact test for equality. Their order and their division
do not matter. -/
class RingScalar (R : Type) extends CommRing R, Scalar R where
  beq_iff : ∀ x y : R, (x == y) = true ↔ x = y

attribute [instance (10)] RingScalar.toCommRing RingScalar.toScalar

instance (priority := low) RingScalar.ofOrdered : RingScalar K :=
  { ‹Field K›, Scalar.exact with beq_iff := fun _ _ => decide_eq_true_iff }

namespace Scalar

@[simp] theorem isPosInf_exact (x : K) : isPosInf x = false := rfl

@[simp] theorem isNegInf_exact (x : K) : isNegInf x = false := rfl

@[simp] theorem isNaN_exact (x : K) : isNaN x = false := by
  simp [isNaN]

@[simp] theorem isFinite_exact (x : K) : isFinite x = true := by
  simp [isFinite]

theorem quotient_eq_ok_iff {a b c : K} : quotient a b = .ok c ↔ b ≠ 0 ∧ c = a / b := by
  unfold quotient
  rw [bind_eq_ok_iff]
  simp only [require_eq_ok, pure_eq_ok_iff]
  constructor
  · rintro ⟨-, hb, rfl⟩
    exact ⟨of_decide_eq_true hb, rfl⟩
  · rintro ⟨hb, rfl⟩
    exact ⟨(), decide_eq_true hb, rfl⟩

theorem quotient_of_ne_zero {a b : K} (h : b ≠ 0) : quotient a b = .ok (a / b) :=
  quotient_eq_ok_iff.2 ⟨h, rfl⟩

theorem max_exact (a b : K) : Scalar.max a b = Max.max a b := by
  unfold Scalar.max
  rw [isNaN_exact]
  rcases le_or_gt a b with h | h
  · simp [h]
  · simp [not_le.2 h, h.le]

theorem min_exact (a b : K) : Scalar.min a b = Min.min a b := by
  unfold Scalar.min
  rw [isNaN_exact]
  rcases le_or_gt b a with h | h
  · simp [h]
  · simp [not_le.2 h, h.le]

end Scalar

namespace Bound

/-- The bound admits `x` as far as it is a lower bound. -/
def IsBelow : Bound K → K → Prop
  | negInf, _ => True
  | finite v, x => v ≤ x
  | posInf, _ => False

/-- The bound admits `x` as far as it is an upper bound. -/
def IsAbove : Bound K → K → Prop
  | negInf, _ => False
  | finite v, x => x ≤ v
  | posInf, _ => True

theorem isFinite_exact_iff {b : Bound K} : b.isFinite = true ↔ ∃ v, b = finite v := by
  cases b <;> simp [isFinite, value?]

@[simp] theorem exceeds_iff {b : Bound K} {x : K} : b.exceeds x = true ↔ ¬b.IsBelow x := by
  cases b <;> simp [exceeds, IsBelow]

@[simp] theorem exceededBy_iff {b : Bound K} {x : K} : b.exceededBy x = true ↔ ¬b.IsAbove x := by
  cases b <;> simp [exceededBy, IsAbove]

@[simp] theorem covers_iff {b : Bound K} {x : K} : b.covers x = true ↔ b.IsAbove x := by
  cases b <;> simp [covers, IsAbove]

@[simp] theorem coveredBy_iff {b : Bound K} {x : K} : b.coveredBy x = true ↔ b.IsBelow x := by
  cases b <;> simp [coveredBy, IsBelow]

theorem isAbove_of_not_isBelow {b : Bound K} {x : K} (h : ¬b.IsBelow x) : b.IsAbove x := by
  cases b with
  | negInf => exact absurd trivial h
  | finite v => exact (not_le.1 h).le
  | posInf => trivial

theorem isBelow_of_not_isAbove {b : Bound K} {x : K} (h : ¬b.IsAbove x) : b.IsBelow x := by
  cases b with
  | negInf => trivial
  | finite v => exact (not_le.1 h).le
  | posInf => exact absurd trivial h

theorem isInterval_ne_posInf {l u : Bound K} (h : l.isInterval u = true) : l ≠ posInf := by
  rintro rfl
  cases u <;> simp [isInterval] at h

theorem isInterval_ne_negInf {l u : Bound K} (h : l.isInterval u = true) : u ≠ negInf := by
  rintro rfl
  cases l <;> simp [isInterval] at h

theorem isInterval_le {v w : K} (h : (finite v).isInterval (finite w) = true) : v ≤ w := by
  simpa [isInterval] using h

/-- Only the point of an interval that is a single point lies on both ends or outside of them. -/
theorem isAbove_and_isBelow_iff {lo hi : Bound K} {z : K} (h : lo.isInterval hi = true) :
    lo.IsAbove z ∧ hi.IsBelow z ↔ lo = finite z ∧ hi = finite z := by
  cases lo <;> cases hi <;> simp only [isInterval, decide_eq_true_eq, Bool.false_eq_true] at h <;>
    simp only [IsAbove, IsBelow, finite.injEq, reduceCtorEq, false_and, and_false]
  constructor
  · rintro ⟨hlo, hhi⟩
    exact ⟨by linarith, by linarith⟩
  · rintro ⟨rfl, rfl⟩
    exact ⟨le_rfl, le_rfl⟩

/-- The nearest point of an interval is in it. -/
theorem clamp_within {lo hi : Bound K} (z : K) (h : lo.isInterval hi = true) :
    lo.IsBelow (clamp z lo hi) ∧ hi.IsAbove (clamp z lo hi) := by
  cases lo <;> cases hi <;> simp only [isInterval, decide_eq_true_eq, Bool.false_eq_true] at h <;>
    simp only [IsBelow, IsAbove, clamp, true_and, and_true]
  all_goals split_ifs
  all_goals first
    | linarith
    | exact ⟨by linarith, by linarith⟩

/-- The nearest point of an interval makes an obtuse angle with every point of the interval. -/
theorem clamp_obtuse {lo hi : Bound K} {x : K} (z : K) (hlo : lo.IsBelow x) (hhi : hi.IsAbove x) :
    0 ≤ (x - clamp z lo hi) * (clamp z lo hi - z) := by
  cases lo <;> cases hi <;> simp only [IsBelow, IsAbove] at hlo hhi <;> simp only [clamp]
  all_goals first
    | simp
    | (split_ifs <;> nlinarith)

end Bound

end PolyProjection
