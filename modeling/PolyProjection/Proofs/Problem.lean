import Mathlib
import PolyProjection.Problem
import PolyProjection.Proofs.BlockTree
import PolyProjection.Proofs.Sparse.Products

/-! Accepted problems. Their matrix is well formed and stored with its transpose, the vectors have the lengths
of the matrix, and every interval has a point. On such a problem the products and the clamping are carried out
and have the coordinates that one expects. -/

namespace PolyProjection.Problem

set_option linter.unusedSectionVars false

section Tests

variable {α : Type} [Scalar α] {p q : Problem α} {tree : BlockTree}

/-- What was tested before a problem was accepted, over any scalars. -/
structure Tested (p : Problem α) : Prop where
  check : p.a.check = .ok ()
  transpose : p.a.transpose = .ok p.aT
  sizes : p.bl.size = p.nrows ∧ p.bu.size = p.nrows ∧ p.lo.size = p.ncols ∧ p.hi.size = p.ncols ∧ p.y.size = p.ncols
  rows : badInterval? p.bl p.bu = none
  cols : badInterval? p.lo p.hi = none
  point : p.y.findIdx? (!Scalar.isFinite ·) = none

/-- The problem with all rows and columns in one block. -/
def undivided (p : Problem α) : Problem α :=
  { p with tree := .single p.nrows p.ncols }

theorem tested_of_create {a : SparseMatrix α} {bl bu lo hi : Array (Bound α)} {y : Array α}
    (h : create a bl bu lo hi y = .ok (.ok p)) : p.Tested ∧ p.undivided = p := by
  unfold create at h
  dsimp only at h
  split at h
  · simp at h
  rename_i hsizes
  simp only [not_or, not_not] at hsizes
  split at h
  · simp at h
  rename_i hcheck
  split at h
  · simp at h
  · simp at h
  · simp at h
  rename_i hrows hcols hpoint
  obtain ⟨aT, htranspose, h⟩ := bind_eq_ok_iff.1 h
  rw [pure_eq_ok_iff, Except.ok.injEq] at h
  subst h
  exact ⟨⟨hcheck, htranspose, hsizes, hrows, hcols, hpoint⟩, rfl⟩

/-- Data that passed the tests once pass them again. -/
theorem Tested.create_eq (h : p.Tested) : create p.a p.bl p.bu p.lo p.hi p.y = .ok (.ok p.undivided) := by
  have hsizes : ¬(p.bl.size ≠ p.a.nrows ∨ p.bu.size ≠ p.a.nrows ∨ p.lo.size ≠ p.a.ncols ∨ p.hi.size ≠ p.a.ncols ∨
      p.y.size ≠ p.a.ncols) := by
    simp only [not_or, not_not]
    exact h.sizes
  unfold create
  dsimp only
  rw [if_neg hsizes, h.check, h.rows, h.cols, h.point]
  simp only [h.transpose, ok_bind]
  rfl

/-- A tree changes nothing but the blocks, and it owns the rows and columns of the matrix. -/
theorem of_withBlockTree (h : p.withBlockTree tree = .ok (.ok q)) :
    q = { p with tree := tree } ∧ tree.nrows = p.nrows ∧ tree.ncols = p.ncols := by
  unfold withBlockTree at h
  split_ifs at h with hsizes
  · simp at h
  · rw [not_or, not_not, not_not] at hsizes
    obtain ⟨js, -, h⟩ := bind_eq_ok_iff.1 h
    split at h
    · simp at h
    · rw [pure_eq_ok_iff, Except.ok.injEq] at h
      exact ⟨h.symm, hsizes⟩

theorem isInterval_of_badInterval?_eq_none {l u : Array (Bound α)} (h : badInterval? l u = none) {i : Nat}
    {b c : Bound α} (hb : l[i]? = some b) (hc : u[i]? = some c) : b.isInterval c = true := by
  have hmem : (b, c) ∈ l.zip u := Array.mem_of_getElem? (Array.getElem?_zip_eq_some.2 ⟨hb, hc⟩)
  have hall := Array.findIdx?_eq_none_iff.1 h (b, c) hmem
  simpa using hall

end Tests

variable {K : Type} [Field K] [LinearOrder K] [IsStrictOrderedRing K]

/-- A problem that was accepted, perhaps with its rows and columns put into the blocks of accepted trees. -/
inductive Accepted : Problem K → Prop where
  | create {a : SparseMatrix K} {bl bu lo hi : Array (Bound K)} {y : Array K} {p : Problem K} :
      Problem.create a bl bu lo hi y = .ok (.ok p) → Accepted p
  | withBlockTree {p q : Problem K} {parent : Array (Option Nat)} {rowStart colStart : Array Nat}
      {tree : BlockTree} : Accepted p → BlockTree.ofParents parent rowStart colStart = .ok tree →
      p.withBlockTree tree = .ok (.ok q) → Accepted q

def blAt (p : Problem K) (i : Nat) : Bound K :=
  p.bl[i]?.getD .negInf

def buAt (p : Problem K) (i : Nat) : Bound K :=
  p.bu[i]?.getD .posInf

def loAt (p : Problem K) (j : Nat) : Bound K :=
  p.lo[j]?.getD .negInf

def hiAt (p : Problem K) (j : Nat) : Bound K :=
  p.hi[j]?.getD .posInf

/-- The value of row `i` at `x`. -/
def rowValue (p : Problem K) (i : Nat) (x : Nat → K) : K :=
  ∑ j ∈ Finset.range p.ncols, p.a.coeff i j * x j

/-- Entry `j` of `y + Aᵀ * lambda`. -/
def columnValue (p : Problem K) (j : Nat) (lambda : Nat → K) : K :=
  coord p.y j + ∑ i ∈ Finset.range p.nrows, p.a.coeff i j * lambda i

/-- The data of a problem fit together, and no interval is empty. -/
structure WellPosed (p : Problem K) : Prop where
  formatted : p.a.Formatted
  transpose : SparseMatrix.IsTranspose p.a p.aT
  size_bl : p.bl.size = p.nrows
  size_bu : p.bu.size = p.nrows
  size_lo : p.lo.size = p.ncols
  size_hi : p.hi.size = p.ncols
  size_y : p.y.size = p.ncols
  row_interval : ∀ i < p.nrows, (p.blAt i).isInterval (p.buAt i) = true
  col_interval : ∀ j < p.ncols, (p.loAt j).isInterval (p.hiAt j) = true

variable {p q : Problem K}

theorem Tested.wellPosed (h : p.Tested) : p.WellPosed := by
  have hformat := SparseMatrix.formatted_of_check h.check
  obtain ⟨hbl, hbu, hlo, hhi, hy⟩ := h.sizes
  refine ⟨hformat, hformat.isTranspose_of_ok h.transpose, hbl, hbu, hlo, hhi, hy, fun i hi => ?_, fun j hj => ?_⟩
  · refine isInterval_of_badInterval?_eq_none (i := i) h.rows ?_ ?_
    · rw [blAt, Array.getElem?_eq_getElem (by omega)]
      rfl
    · rw [buAt, Array.getElem?_eq_getElem (by omega)]
      rfl
  · refine isInterval_of_badInterval?_eq_none (i := j) h.cols ?_ ?_
    · rw [loAt, Array.getElem?_eq_getElem (by omega)]
      rfl
    · rw [hiAt, Array.getElem?_eq_getElem (by omega)]
      rfl

theorem wellPosed_of_create {a : SparseMatrix K} {bl bu lo hi : Array (Bound K)} {y : Array K}
    (h : create a bl bu lo hi y = .ok (.ok p)) : p.WellPosed :=
  (tested_of_create h).1.wellPosed

/-- A tree changes nothing but the blocks. -/
theorem eq_of_withBlockTree {tree : BlockTree} (h : p.withBlockTree tree = .ok (.ok q)) :
    q = { p with tree := tree } :=
  (of_withBlockTree h).1

theorem WellPosed.of_tree {tree : BlockTree} (h : p.WellPosed) : WellPosed { p with tree := tree } :=
  ⟨h.formatted, h.transpose, h.size_bl, h.size_bu, h.size_lo, h.size_hi, h.size_y, h.row_interval,
    h.col_interval⟩

theorem Accepted.wellPosed (h : p.Accepted) : p.WellPosed := by
  induction h with
  | create h => exact wellPosed_of_create h
  | withBlockTree _ _ h ih =>
      rw [eq_of_withBlockTree h]
      exact ih.of_tree

/-- The tree of an accepted problem is an accepted one that owns the rows and columns of the matrix. -/
theorem Accepted.tree (h : p.Accepted) :
    p.tree.Accepted ∧ p.tree.nrows = p.nrows ∧ p.tree.ncols = p.ncols := by
  cases h with
  | create h =>
      rw [← (tested_of_create h).2]
      exact ⟨BlockTree.accepted_single _ _, rfl, rfl⟩
  | withBlockTree _ htree h =>
      obtain ⟨heq, hsizes⟩ := of_withBlockTree h
      rw [heq]
      exact ⟨⟨_, _, _, htree⟩, hsizes⟩

/-- An accepted problem has a matrix in the sparse format. -/
theorem Accepted.check {p : Problem K} (h : p.Accepted) : p.a.check = .ok () := by
  induction h with
  | create hok =>
      unfold Problem.create at hok
      dsimp only at hok
      split at hok
      · simp at hok
      split at hok
      · simp at hok
      · rename_i hcheck
        split at hok
        · simp at hok
        · simp at hok
        · simp at hok
        · obtain ⟨_, -, hok⟩ := bind_eq_ok_iff.1 hok
          rw [pure_eq_ok_iff, Except.ok.injEq] at hok
          rw [← hok]
          exact hcheck
  | withBlockTree _ _ hok ih =>
      rw [eq_of_withBlockTree hok]
      exact ih

/-- The numbers that are at least one, and zero as the point to project. -/
def halfLine : Checked (Except ProblemError (Problem ℚ)) :=
  create ⟨1, 1, #[0, 1], #[0], #[1]⟩ #[.finite 1] #[.posInf] #[.negInf] #[.posInf] #[0]

namespace WellPosed

variable (h : p.WellPosed)

include h

theorem fetch_bl {i : Nat} (hi : i < p.nrows) : fetch p.bl i = .ok (p.blAt i) := by
  have hlt : i < p.bl.size := by rw [h.size_bl]; exact hi
  rw [fetch_of_lt hlt, blAt, Array.getElem?_eq_getElem hlt, Option.getD_some]

theorem fetch_bu {i : Nat} (hi : i < p.nrows) : fetch p.bu i = .ok (p.buAt i) := by
  have hlt : i < p.bu.size := by rw [h.size_bu]; exact hi
  rw [fetch_of_lt hlt, buAt, Array.getElem?_eq_getElem hlt, Option.getD_some]

theorem fetch_lo {j : Nat} (hj : j < p.ncols) : fetch p.lo j = .ok (p.loAt j) := by
  have hlt : j < p.lo.size := by rw [h.size_lo]; exact hj
  rw [fetch_of_lt hlt, loAt, Array.getElem?_eq_getElem hlt, Option.getD_some]

theorem fetch_hi {j : Nat} (hj : j < p.ncols) : fetch p.hi j = .ok (p.hiAt j) := by
  have hlt : j < p.hi.size := by rw [h.size_hi]; exact hj
  rw [fetch_of_lt hlt, hiAt, Array.getElem?_eq_getElem hlt, Option.getD_some]

theorem isEquality_ok {i : Nat} (hi : i < p.nrows) : p.isEquality i = .ok ((p.blAt i).isPoint (p.buAt i)) := by
  rw [isEquality, h.fetch_bl hi, h.fetch_bu hi]
  rfl

/-- The products with a row. -/
theorem rowDot_ok {x : Array K} (hx : x.size = p.ncols) {i : Nat} (hi : i < p.nrows) :
    p.rowDot i x = .ok (p.rowValue i (coord x)) := by
  obtain ⟨c, hc, hdot⟩ := h.transpose.foldlM_row_ok h.formatted hx hi
  rw [rowDot, hc, ok_bind, hdot]
  rfl

/-- The point without bounds. -/
theorem shifted_ok {lambda : Array K} (hl : lambda.size = p.nrows) : ∃ z, p.shifted lambda = .ok z ∧
    z.size = p.ncols ∧ ∀ j < p.ncols, coord z j = p.columnValue j (coord lambda) :=
  h.formatted.mulVecTransposed_ok hl h.size_y

/-- The point within the bounds. -/
theorem clip_ok {x : Array K} (hx : x.size = p.ncols) : ∃ z, p.clip x = .ok z ∧ z.size = p.ncols ∧
    ∀ j < p.ncols, coord z j = Bound.clamp (coord x j) (p.loAt j) (p.hiAt j) := by
  refine ⟨x.mapIdx fun j v => Bound.clamp v (p.loAt j) (p.hiAt j), ?_, by simp [hx], fun j hj => ?_⟩
  · refine mapIdxM_of_forall (g := fun j v => Bound.clamp v (p.loAt j) (p.hiAt j)) fun j hj => ?_
    rw [h.fetch_lo (hx ▸ hj), h.fetch_hi (hx ▸ hj)]
    rfl
  · have hlt : j < x.size := by rw [hx]; exact hj
    rw [coord_eq_getElem (by simpa using hlt), coord_eq_getElem hlt, Array.getElem_mapIdx]

end WellPosed

end PolyProjection.Problem
