import PolyProjection.BlockTree
import PolyProjection.IndexList
import PolyProjection.Status

/-! The order in which the blocks of a tree are worked on, from the leaves to the root. A job is a block whose
subtree is optimized as a whole. A block becomes a job once each of its children is resolved, by converging or
by having no active row. -/

namespace PolyProjection

/-- A block queued for one sweep. -/
structure Job where
  block : Nat
  rows : IndexRange
  cols : IndexRange
  /-- Whether the line search changed the active set. -/
  changed : Bool
  /-- The first row whose forward solve must be done again, none if all must be. -/
  mark : Option Nat
  deriving DecidableEq, Repr

/-- The fresh job of a block. -/
def BlockTree.job (t : BlockTree) (block : Nat) : Checked Job :=
  return ⟨block, ← t.subtreeRows block, ← t.subtreeCols block, false, none⟩

/-- The jobs of the current sweep, and for each block how many of its children are not resolved. -/
structure Schedule where
  kidsLeft : Array Nat
  jobs : List Job
  deriving DecidableEq, Repr

namespace Schedule

def empty (t : BlockTree) : Schedule :=
  ⟨Array.replicate t.size 0, []⟩

/-- Whether the current sweep includes the root. -/
def atRoot (s : Schedule) (t : BlockTree) : Bool :=
  s.jobs.any (·.block == t.root)

/-- One more child of block `p` is resolved. -/
def resolveKid (s : Schedule) (p : Nat) : Checked Schedule := do
  let left ← subtract (← fetch s.kidsLeft p) 1
  return { s with kidsLeft := ← store s.kidsLeft p left }

/-- Whether an index of the range is linked. -/
def meets (rows : IndexList) (range : IndexRange) : Checked Bool :=
  return (← rows.seek range.start range.stop).isSome

/-- Queue block `k` if its children are resolved and its subtree has an active row; without one the block
resolves at once. -/
def seedBlock (t : BlockTree) (rows : IndexList) (s : Schedule) (k : Nat) : Checked Schedule := do
  if (← fetch s.kidsLeft k) ≠ 0 then return s
  if ← meets rows (← t.subtreeRows k) then return { s with jobs := s.jobs ++ [← t.job k] }
  match ← t.parentOf k with
  | some p => s.resolveKid p
  | none => return s

/-- The first sweep. Children are visited before their parent. -/
def seed (t : BlockTree) (rows : IndexList) : Checked Schedule :=
  (List.range t.size).foldlM (seedBlock t rows) ⟨t.kids.map List.length, []⟩

/-- The outcome of resolving a block. -/
inductive Climb where
  /-- The root is resolved. -/
  | finished
  /-- An ancestor waits for another child. -/
  | waiting
  /-- An ancestor with active rows of its own is ready. -/
  | ready (job : Job)

/-- Block `k` is resolved; so are, in turn, its ancestors without active rows of their own that wait for no other
child. A parent has a larger number, so the number of blocks bounds the climb. -/
def climb (t : BlockTree) (rows : IndexList) : Nat → Schedule → Nat → Checked (Climb × Schedule)
  | 0, _, _ => .error .wrongState
  | levels + 1, s, k => do
    match ← t.parentOf k with
    | none => return (.finished, s)
    | some p =>
      let s ← s.resolveKid p
      if 0 < (← fetch s.kidsLeft p) then return (.waiting, s)
      if ← meets rows (← t.ownRows p) then return (.ready (← t.job p), s)
      climb t rows levels s p

/-- The next sweep from the jobs of the last one, in order: a changed job is queued again, an unchanged one
resolves its block. The queue is `none` once the root is resolved. -/
def drain (t : BlockTree) (rows : IndexList) (refactored : Bool) :
    List Job → Schedule → Checked (Option (List Job) × Schedule)
  | [], s => return (some [], s)
  | job :: rest, s => do
    if job.changed then
      let again := { job with changed := false, mark := if refactored then none else job.mark }
      let (queue, s) ← drain t rows refactored rest s
      return (queue.map (again :: ·), s)
    else
      match ← climb t rows t.size s job.block with
      | (.finished, s) => return (none, s)
      | (.waiting, s) => drain t rows refactored rest s
      | (.ready parent, s) =>
        let (queue, s) ← drain t rows refactored rest s
        return (queue.map (parent :: ·), s)

/-- Go on to the next sweep, or answer how the run ends. -/
def advance (t : BlockTree) (rows : IndexList) (refactored : Bool) (s : Schedule) :
    Checked (Option Status × Schedule) := do
  if !s.jobs.any (·.changed) && s.atRoot t then return (some .solutionFound, s)
  if rows.size == 0 then return (some .allRowsDropped, s)
  match ← drain t rows refactored s.jobs s with
  | (none, s) => return (some .solutionFound, { s with jobs := [] })
  | (some queue, s) => return (none, { s with jobs := queue })

end Schedule

end PolyProjection
