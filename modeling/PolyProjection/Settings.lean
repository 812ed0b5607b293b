import PolyProjection.Scalar

/-! The settings of a projection. -/

namespace PolyProjection

/-- The costs compare flops of cheap inner methods with flops of updates. -/
structure Settings (α : Type) where
  /-- The proximal regularization, also the least diagonal entry of the factor. -/
  sigma : α
  /-- Whether the regularization is scaled by the square of the largest entry of the matrix. -/
  scaleSigma : Bool
  /-- The most sweeps of one run of the engine. -/
  maxSweeps : Nat
  /-- The most rounds of a projection. -/
  maxOuterIter : Nat
  /-- How far a row may lie outside its bounds. -/
  tolFeas : α
  coorCost : Float
  ssorCost : Float
  /-- Whether a cheap inner method is asked for when it is expected to pay. -/
  useCheapInnerMethod : Bool
  verbose : Bool
  /-- The detail of verbose output: a summary, also each run, also each sweep. -/
  printLevel : Nat

def Settings.default : Settings Float :=
  ⟨1e-8, true, 1000, 100, 1e-9, 0.125, 0.5, true, false, 1⟩

/-- The fields that can have a bad value. -/
inductive SettingsField where
  | sigma
  | tolFeas
  | coorCost
  | ssorCost
  | maxSweeps
  | maxOuterIter
  deriving DecidableEq, Repr

def SettingsField.name : SettingsField → String
  | sigma => "sigma"
  | tolFeas => "tol_feas"
  | coorCost => "coorcost"
  | ssorCost => "ssorcost"
  | maxSweeps => "max_sweeps"
  | maxOuterIter => "max_outer_iter"

/-- A field with a bad value. -/
structure SettingsError where
  field : SettingsField
  deriving DecidableEq, Repr

def SettingsError.message (e : SettingsError) : String :=
  "Bad value for field \"" ++ e.field.name ++ "\""

namespace Settings

variable {α : Type} [Scalar α]

def isPositive (x : α) : Bool :=
  Scalar.isFinite x && decide (0 < x)

def isNonnegative (x : α) : Bool :=
  Scalar.isFinite x && decide (0 ≤ x)

/-- The fields and whether their values are good, in the order in which they are reported. -/
def verdicts (s : Settings α) : List (SettingsField × Bool) :=
  [(.sigma, isPositive s.sigma), (.tolFeas, isPositive s.tolFeas), (.coorCost, isNonnegative s.coorCost),
    (.ssorCost, isNonnegative s.ssorCost), (.maxSweeps, s.maxSweeps != 0), (.maxOuterIter, s.maxOuterIter != 0)]

def validate (s : Settings α) : Except SettingsError Unit :=
  match s.verdicts.find? (!·.2) with
  | some (field, _) => .error ⟨field⟩
  | none => .ok ()

end Settings

end PolyProjection
