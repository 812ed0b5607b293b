import PolyProjection.Fault
import PolyProjection.Scalar

/-! The candidates of a line search, ordered by their break values: a binary heap with the position of each
candidate, so that a candidate can be found and removed anywhere. Equal break values are ordered by candidate,
lowest first. -/

namespace PolyProjection

/-- `slots` holds the candidates in heap order, and `position[c]` is the slot of `c` if it has one. -/
structure BreakHeap (α : Type) where
  slots : Array Nat
  position : Array (Option Nat)
  keys : Array α
  deriving Repr

namespace BreakHeap

variable {α : Type} [Scalar α]

/-- The empty heap of the candidates below `capacity`. -/
def empty (capacity : Nat) : BreakHeap α :=
  ⟨#[], Array.replicate capacity none, Array.replicate capacity 0⟩

/-- The empty heap of the candidates below a number that need not be the size of anything. -/
def create (capacity : Nat) : Checked (BreakHeap α) := do
  requireLength capacity
  return empty capacity

def size (h : BreakHeap α) : Nat :=
  h.slots.size

def contains (h : BreakHeap α) (c : Nat) : Checked Bool :=
  return (← fetch h.position c).isSome

/-- The break value of a candidate in the heap. -/
def key? (h : BreakHeap α) (c : Nat) : Checked (Option α) := do
  if ← h.contains c then return some (← fetch h.keys c) else return none

/-- The order of candidates: by break value, then by number. -/
def less (h : BreakHeap α) (a b : Nat) : Checked Bool := do
  let ka ← fetch h.keys a
  let kb ← fetch h.keys b
  return ka < kb || ka == kb && a < b

/-- The order of the candidates in two slots. -/
def slotLess (h : BreakHeap α) (p q : Nat) : Checked Bool := do
  h.less (← fetch h.slots p) (← fetch h.slots q)

def swap (h : BreakHeap α) (p q : Nat) : Checked (BreakHeap α) := do
  let a ← fetch h.slots p
  let b ← fetch h.slots q
  let slots ← store (← store h.slots p b) q a
  let position ← store (← store h.position b (some p)) a (some q)
  return { h with slots := slots, position := position }

/-- Exchange the candidate in slot `p` with its parent as long as it comes before it. -/
def siftUp (h : BreakHeap α) (p : Nat) : Checked (BreakHeap α) :=
  if hp : 0 < p then do
    let parent := (p - 1) / 2
    if ← h.slotLess p parent then
      let h ← h.swap p parent
      h.siftUp parent
    else return h
  else return h
  termination_by p
  decreasing_by omega

/-- Exchange the candidate in slot `p` with its first child as long as that comes before it, in a heap of `n`
slots. -/
def siftDown (h : BreakHeap α) (n p : Nat) : Checked (BreakHeap α) :=
  if hl : 2 * p + 1 < n then do
    let right : Bool ← if 2 * p + 2 < n then h.slotLess (2 * p + 2) (2 * p + 1) else pure false
    if hr : right ∧ 2 * p + 2 < n then
      if ← h.slotLess (2 * p + 2) p then
        let h ← h.swap p (2 * p + 2)
        h.siftDown n (2 * p + 2)
      else return h
    else if ← h.slotLess (2 * p + 1) p then
      let h ← h.swap p (2 * p + 1)
      h.siftDown n (2 * p + 1)
    else return h
  else return h
  termination_by n - p
  decreasing_by all_goals omega

/-- Add a candidate that is not in the heap. -/
def insert (h : BreakHeap α) (c : Nat) (key : α) : Checked (BreakHeap α) := do
  require (!(← h.contains c)) .wrongState
  let last := h.slots.size
  let h : BreakHeap α :=
    { slots := h.slots.push c, position := ← store h.position c (some last), keys := ← store h.keys c key }
  h.siftUp last

/-- Change the break value of a candidate in the heap. -/
def update (h : BreakHeap α) (c : Nat) (key : α) : Checked (BreakHeap α) := do
  match ← fetch h.position c with
  | none => .error .wrongState
  | some p =>
    let old ← fetch h.keys c
    let h := { h with keys := ← store h.keys c key }
    if key < old then h.siftUp p else h.siftDown h.size p

/-- Remove a candidate from the heap: the last one takes its slot and finds its place from there. -/
def delete (h : BreakHeap α) (c : Nat) : Checked (BreakHeap α) := do
  match ← fetch h.position c, h.slots.back? with
  | some p, some last =>
    let position ← store h.position c none
    let slots := h.slots.pop
    if p < slots.size then
      let h : BreakHeap α :=
        { h with slots := ← store slots p last, position := ← store position last (some p) }
      let h ← h.siftUp p
      match ← fetch h.position last with
      | some p => h.siftDown h.size p
      | none => .error .wrongState
    else return { h with slots := slots, position := position }
  | _, _ => .error .wrongState

/-- The first candidate and its break value. -/
def peekMin (h : BreakHeap α) : Checked (Option (Nat × α)) :=
  match h.slots[0]? with
  | none => return none
  | some c => return some (c, ← fetch h.keys c)

/-- Take the first candidate out of the heap. -/
def popMin (h : BreakHeap α) : Checked (Option (Nat × α) × BreakHeap α) := do
  match ← h.peekMin with
  | none => return (none, h)
  | some (c, key) => return (some (c, key), ← h.delete c)

/-- The heap without its candidates; break values stay as they are. -/
def clear (h : BreakHeap α) : Checked (BreakHeap α) :=
  return { h with slots := #[], position := ← h.slots.foldlM (fun ps c => store ps c none) h.position }

/-- Whether no candidate comes before its parent and the positions are those of the slots. -/
def isValid (h : BreakHeap α) : Checked Bool := do
  let ordered ← (List.range (h.slots.size - 1)).allM fun p => return !(← h.slotLess (p + 1) (p / 2))
  let placed ← (List.range h.slots.size).allM fun p => return (← fetch h.position (← fetch h.slots p)) == some p
  return ordered && placed && h.position.countP Option.isSome == h.slots.size

end BreakHeap

end PolyProjection
