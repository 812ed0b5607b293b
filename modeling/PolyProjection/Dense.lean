import PolyProjection.Scalar

/-! Dense vectors. Operations on two vectors stop at the end of the shorter one. -/

namespace PolyProjection

/-- The value of the interval from `lo` to `hi` that is nearest to `x`. -/
def clamp {α : Type} [Scalar α] (x lo hi : α) : α :=
  if x < lo then lo else if hi < x then hi else x

namespace Dense

def fill {α : Type} (x : Array α) (c : α) : Array α :=
  x.map fun _ => c

theorem size_fill {α : Type} (x : Array α) (c : α) : (fill x c).size = x.size := by
  simp [fill]

variable {α : Type} [Scalar α]

def dot (x y : Array α) : α :=
  (x.zip y).foldl (fun sum p => sum + p.1 * p.2) 0

/-- The largest absolute value. A value outside the order takes part, and only a later one replaces it. -/
def normInf (x : Array α) : α :=
  x.foldl (fun top v => let a := Scalar.abs v; if top < a ∨ Scalar.isNaN a then a else top) 0

/-- The largest absolute value of a difference, of those that have a place in the order. -/
def distInf (x y : Array α) : α :=
  (x.zip y).foldl (fun top p => Scalar.max top (Scalar.abs (p.1 - p.2))) 0

/-- Clamp each entry to the interval at its index, as far as both ends are given. -/
def clip (x lo hi : Array α) : Array α :=
  x.mapIdx fun i v =>
    match lo[i]?, hi[i]? with
    | some l, some h => clamp v l h
    | _, _ => v

theorem size_clip (x lo hi : Array α) : (clip x lo hi).size = x.size := by
  simp [clip]

end Dense

end PolyProjection
