import PolyProjection.Fault
import PolyProjection.Sorted

/-! A multilevel decomposition of the rows and columns of a matrix. Blocks are numbered in postorder: a parent
comes after its children, the last block is the root, and a block and its descendants have consecutive numbers.
Each block owns a range of rows and a range of columns. -/

namespace PolyProjection

/-- The indices from `start` up to `stop`. -/
structure IndexRange where
  start : Nat
  stop : Nat
  deriving DecidableEq, Repr

/-- Why arrays describe no tree. -/
inductive BlockTreeError where
  | incompatibleDimension
  | badRanges
  | notPostordered (block : Nat)
  | badRoot
  | notContiguous (block : Nat)
  deriving DecidableEq, Repr

def BlockTreeError.message : BlockTreeError → String
  | incompatibleDimension => "Block tree arrays have inconsistent lengths"
  | badRanges => "Row or column starts must begin at zero and be nondecreasing"
  | notPostordered k => "Block " ++ Nat.repr k ++ " is not numbered before its parent"
  | badRoot => "The last block must be the only root"
  | notContiguous k => "The descendants of block " ++ Nat.repr k ++ " are not numbered contiguously"

/-- `leftDesc[k]` is the smallest descendant of block `k`, and `depth[k]` its distance to the root. The starts
have one more entry, the end of the last range. -/
structure BlockTree where
  parent : Array (Option Nat)
  kids : Array (List Nat)
  depth : Array Nat
  leftDesc : Array Nat
  rowStart : Array Nat
  colStart : Array Nat
  deriving DecidableEq, Repr

namespace BlockTree

/-- Whether ranges that start at the given indices are in order and begin at zero. -/
def startsAreValid (starts : Array Nat) : Bool :=
  starts[0]? == some 0 && isNondecreasing starts.toList

/-- What is wrong with the parent of block `k` of `n` blocks; the last one is not looked at. -/
def parentError? (n : Nat) (parent : Array (Option Nat)) (k : Nat) : Option BlockTreeError :=
  match parent[k]?.join with
  | none => some .badRoot
  | some p => if p ≤ k ∨ n ≤ p then some (.notPostordered k) else none

/-- The children of each block, in ascending order. -/
def kidsOf (parent : Array (Option Nat)) : Array (List Nat) :=
  (Array.range parent.size).map fun p => (List.range parent.size).filter fun k => parent[k]? == some (some p)

/-- Smallest descendant and number of descendants of each block, handed up from children to parents. -/
def extents (parent : Array (Option Nat)) : Array Nat × Array Nat :=
  (List.range parent.size).foldl (fun (left, count) k =>
    match parent[k]?.join with
    | none => (left, count)
    | some p => (left.modify p (min · (left.getD k 0)), count.modify p (· + count.getD k 0)))
    (Array.range parent.size, Array.replicate parent.size 1)

/-- Distances to the root, handed down from parents to children. -/
def depths (parent : Array (Option Nat)) : Array Nat :=
  (List.range parent.size).reverse.foldl (fun depth k =>
    match parent[k]?.join with
    | none => depth
    | some p => depth.setIfInBounds k (depth.getD p 0 + 1)) (Array.replicate parent.size 0)

/-- The tree with the given parents and the ranges that begin at the given indices. -/
def ofParents (parent : Array (Option Nat)) (rowStart colStart : Array Nat) : Except BlockTreeError BlockTree :=
  let n := parent.size
  if n = 0 ∨ rowStart.size ≠ n + 1 ∨ colStart.size ≠ n + 1 then .error .incompatibleDimension
  else if !startsAreValid rowStart || !startsAreValid colStart then .error .badRanges
  else if parent[n - 1]?.join.isSome then .error .badRoot
  else
    match (List.range (n - 1)).findSome? (parentError? n parent) with
    | some e => .error e
    | none =>
      let (left, count) := extents parent
      match (List.range n).find? fun k => k + 1 - left.getD k 0 ≠ count.getD k 0 with
      | some k => .error (.notContiguous k)
      | none => .ok ⟨parent, kidsOf parent, depths parent, left, rowStart, colStart⟩

/-- The tree whose only block owns everything. -/
def single (m n : Nat) : BlockTree :=
  ⟨#[none], #[[]], #[0], #[0], #[0, m], #[0, n]⟩

def size (t : BlockTree) : Nat :=
  t.parent.size

def root (t : BlockTree) : Nat :=
  t.size - 1

def nrows (t : BlockTree) : Nat :=
  t.rowStart.getD t.size 0

def ncols (t : BlockTree) : Nat :=
  t.colStart.getD t.size 0

/-- The parent of block `k`, none for the root. -/
def parentOf (t : BlockTree) (k : Nat) : Checked (Option Nat) :=
  fetch t.parent k

def kidsAt (t : BlockTree) (k : Nat) : Checked (List Nat) :=
  fetch t.kids k

def isLeaf (t : BlockTree) (k : Nat) : Checked Bool :=
  return (← t.kidsAt k).isEmpty

/-- The range from the start of block `a` to the end of block `b`. -/
def rangeBetween (starts : Array Nat) (a b : Nat) : Checked IndexRange :=
  return ⟨← fetch starts a, ← fetch starts (b + 1)⟩

def ownRows (t : BlockTree) (k : Nat) : Checked IndexRange :=
  rangeBetween t.rowStart k k

def ownCols (t : BlockTree) (k : Nat) : Checked IndexRange :=
  rangeBetween t.colStart k k

/-- The rows of block `k` and its descendants. -/
def subtreeRows (t : BlockTree) (k : Nat) : Checked IndexRange := do
  rangeBetween t.rowStart (← fetch t.leftDesc k) k

/-- The columns of block `k` and its descendants. -/
def subtreeCols (t : BlockTree) (k : Nat) : Checked IndexRange := do
  rangeBetween t.colStart (← fetch t.leftDesc k) k

/-- The last of the ranges that begin at or before `i`. -/
def owner (starts : Array Nat) (i : Nat) : Nat :=
  (starts.toList.takeWhile (· ≤ i)).length - 1

def blockOfRow (t : BlockTree) (i : Nat) : Nat :=
  owner t.rowStart i

def blockOfCol (t : BlockTree) (j : Nat) : Nat :=
  owner t.colStart j

/-- The block of each row. -/
def blocksOfRows (t : BlockTree) : Checked (List Nat) := do
  requireLength t.nrows
  return (List.range t.nrows).map t.blockOfRow

/-- The block of each column. -/
def blocksOfCols (t : BlockTree) : Checked (List Nat) := do
  requireLength t.ncols
  return (List.range t.ncols).map t.blockOfCol

/-- Whether block `a` is block `b` or one of its ancestors. -/
def isAncestorOrSelf (t : BlockTree) (a b : Nat) : Checked Bool :=
  return decide ((← fetch t.leftDesc a) ≤ b ∧ b ≤ a)

theorem ofParents_single (m n : Nat) : ofParents #[none] #[0, m] #[0, n] = .ok (single m n) := by
  have h : Array.range 1 = #[0] := by decide
  simp [ofParents, startsAreValid, isNondecreasing, neighbours, extents, single, kidsOf, depths, h]

end BlockTree

end PolyProjection
