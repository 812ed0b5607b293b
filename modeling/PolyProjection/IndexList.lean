import PolyProjection.Fault
import PolyProjection.Sorted

/-! Lists of indices below a fixed bound, linked in both directions inside two arrays. An end marker, whose
index is the bound, comes before the first and after the last entry, so that linking and unlinking have no
special cases. -/

namespace PolyProjection

/-- `next[i]` and `prev[i]` are the neighbours of a linked index and absent for any other. -/
structure IndexList where
  next : Array (Option Nat)
  prev : Array (Option Nat)
  size : Nat
  deriving DecidableEq, Repr

namespace IndexList

/-- The empty list over the indices below `n`. -/
def empty (n : Nat) : IndexList :=
  let links := (Array.replicate n none).push (some n)
  ⟨links, links, 0⟩

/-- The empty list over the indices below a number that need not be the size of anything. -/
def create (n : Nat) : Checked IndexList := do
  requireLength (n + 1)
  return empty n

/-- The index of the end marker. -/
def marker (l : IndexList) : Nat :=
  l.next.size - 1

/-- Whether an index is linked; the end marker is. -/
def contains (l : IndexList) (i : Nat) : Checked Bool :=
  return (← fetch l.next i).isSome

/-- An index read from a link, absent at the end of the list. -/
def unlessMarker (l : IndexList) (i : Nat) : Option Nat :=
  if i = l.marker then none else some i

/-- Follow the link at `i`, which must be linked. -/
def follow (links : Array (Option Nat)) (i : Nat) : Checked Nat := do
  match ← fetch links i with
  | some k => return k
  | none => .error .wrongState

/-- The entry after `i`. -/
def after (l : IndexList) (i : Nat) : Checked (Option Nat) :=
  return l.unlessMarker (← follow l.next i)

/-- The entry before `i`. -/
def before (l : IndexList) (i : Nat) : Checked (Option Nat) :=
  return l.unlessMarker (← follow l.prev i)

def first (l : IndexList) : Checked (Option Nat) :=
  l.after l.marker

def last (l : IndexList) : Checked (Option Nat) :=
  l.before l.marker

/-- The first linked index among the `count` indices from `start` on. -/
def seekWithin (l : IndexList) (start : Nat) : Nat → Checked (Option Nat)
  | 0 => return none
  | count + 1 => do if ← l.contains start then return some start else l.seekWithin (start + 1) count

/-- The first linked index from `start` up to `stop`. -/
def seek (l : IndexList) (start stop : Nat) : Checked (Option Nat) :=
  l.seekWithin start (stop - start)

/-- Link `i` after the linked index `pos`, or in front if there is none. -/
def insertAfter (l : IndexList) (pos : Option Nat) (i : Nat) : Checked IndexList := do
  require (!(← l.contains i)) .wrongState
  let p := pos.getD l.marker
  let n ← follow l.next p
  let next ← store (← store l.next p (some i)) i (some n)
  let prev ← store (← store l.prev i (some p)) n (some i)
  return ⟨next, prev, l.size + 1⟩

def pushBack (l : IndexList) (i : Nat) : Checked IndexList := do
  l.insertAfter (← l.last) i

/-- Take a linked index out of the list. -/
def unlink (l : IndexList) (i : Nat) : Checked IndexList := do
  let p ← follow l.prev i
  let n ← follow l.next i
  let next ← store (← store l.next p (some n)) i none
  let prev ← store (← store l.prev n (some p)) i none
  return ⟨next, prev, ← subtract l.size 1⟩

/-- The entries from `i` on, of which the list may have `count` at most. -/
def walk (l : IndexList) : Nat → Option Nat → Checked (List Nat)
  | _, none => return []
  | 0, some _ => .error .wrongState
  | count + 1, some i => return i :: (← l.walk count (← l.after i))

/-- The entries from `start` on. The end marker can come first, and no index is met twice. -/
def listFrom (l : IndexList) (start : Option Nat) : Checked (List Nat) :=
  l.walk (l.next.size + 1) start

/-- The entries in order. -/
def toList (l : IndexList) : Checked (List Nat) := do
  l.listFrom (← l.first)

/-- Whether the links from `i` on agree in both directions and end after `count` entries. -/
def agrees (l : IndexList) : Nat → Nat → Checked Bool
  | 0, i => return i == l.marker
  | count + 1, i => do
    if i == l.marker then return false
    match ← fetch l.next i, ← fetch l.prev i with
    | some n, some p =>
      if (← fetch l.next p) == some i && (← fetch l.prev n) == some i then l.agrees count n else return false
    | _, _ => return false

/-- Whether the links agree in both directions and the list has as many entries as it says. -/
def isConsistent (l : IndexList) : Checked Bool := do
  match ← fetch l.next l.marker with
  | some i => l.agrees l.size i
  | none => return false

end IndexList

end PolyProjection
