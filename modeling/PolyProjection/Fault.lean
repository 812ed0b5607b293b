/-! Requests that cannot be carried out. An operation whose caller breaks a stated condition answers with a
fault, so that every read and write of an array is checked and nothing falls back to a default value. -/

namespace PolyProjection

/-- The condition that a caller broke. -/
inductive Fault where
  /-- An index or a range lies outside its array. -/
  | outOfRange
  /-- Two arrays that go together differ in length. -/
  | lengthMismatch
  /-- A row, column, block or candidate is not in the state that the operation requires. -/
  | wrongState
  /-- A count would fall below zero. -/
  | underflow
  /-- A value has no quotient by another one. -/
  | zeroDivisor
  /-- An array would not fit into the address space. -/
  | tooLarge
  deriving DecidableEq, Repr

/-- A computation that may stop with a fault. -/
abbrev Checked := Except Fault

/-- The condition `p` must hold, and `fault` is the answer where it does not. -/
def require (p : Bool) (fault : Fault) : Checked Unit :=
  if p then .ok () else .error fault

/-- The most entries of eight bytes in an array whose size in bytes is a signed word. -/
def maxLength : Nat :=
  (UInt64.size / 2 - 1) / 8

/-- An array of `n` entries must be possible. -/
def requireLength (n : Nat) : Checked Unit :=
  require (n ≤ maxLength) .tooLarge

/-- The entry at `i`. -/
def fetch {α : Type} (xs : Array α) (i : Nat) : Checked α :=
  match xs[i]? with
  | some x => .ok x
  | none => .error .outOfRange

/-- The array with `x` at `i`. -/
def store {α : Type} (xs : Array α) (i : Nat) (x : α) : Checked (Array α) :=
  if h : i < xs.size then .ok (xs.set i x h) else .error .outOfRange

/-- The array with `f` applied to the entry at `i`. -/
def adjust {α : Type} (xs : Array α) (i : Nat) (f : α → α) : Checked (Array α) :=
  if h : i < xs.size then .ok (xs.set i (f xs[i]) h) else .error .outOfRange

/-- The entries with index from `lo` up to `hi`, which must be an ascending range inside the array. -/
def slice {α : Type} (xs : Array α) (lo hi : Nat) : Checked (Array α) :=
  if lo ≤ hi ∧ hi ≤ xs.size then .ok (xs.extract lo hi) else .error .outOfRange

/-- The indices from `lo` up to `hi`, none if the range is inverted. -/
def span (lo hi : Nat) : List Nat :=
  List.range' lo (hi - lo)

/-- Difference of two counts of which the second may not be larger. -/
def subtract (a b : Nat) : Checked Nat :=
  if b ≤ a then .ok (a - b) else .error .underflow

/-- A computation in two parts is carried out if both parts are. -/
theorem bind_eq_ok_iff {α β : Type} {x : Checked α} {f : α → Checked β} {b : β} :
    x >>= f = .ok b ↔ ∃ a, x = .ok a ∧ f a = .ok b := by
  cases x with
  | error e => simp [bind, Except.bind]
  | ok a => simp [bind, Except.bind]

theorem require_eq_ok_iff {p : Bool} {fault : Fault} : require p fault = .ok () ↔ p = true := by
  unfold require
  split <;> simp_all

theorem requireLength_eq_ok_iff {n : Nat} : requireLength n = .ok () ↔ n ≤ maxLength := by
  simp [requireLength, require_eq_ok_iff]

theorem fetch_of_lt {α : Type} {xs : Array α} {i : Nat} (h : i < xs.size) : fetch xs i = .ok xs[i] := by
  simp [fetch, h]

theorem fetch_getD {α : Type} {xs : Array α} {i : Nat} (h : i < xs.size) (d : α) :
    fetch xs i = .ok (xs.getD i d) := by
  rw [fetch_of_lt h, Array.getD_eq_getD_getElem?, Array.getElem?_eq_getElem h, Option.getD_some]

theorem fetch_eq_ok_iff {α : Type} {xs : Array α} {i : Nat} {x : α} :
    fetch xs i = .ok x ↔ xs[i]? = some x := by
  unfold fetch
  split <;> simp_all

theorem store_of_lt {α : Type} {xs : Array α} {i : Nat} (x : α) (h : i < xs.size) :
    store xs i x = .ok (xs.set i x h) :=
  dif_pos h

theorem adjust_of_lt {α : Type} {xs : Array α} {i : Nat} (f : α → α) (h : i < xs.size) :
    adjust xs i f = .ok (xs.set i (f xs[i]) h) :=
  dif_pos h

theorem mem_span {lo hi i : Nat} : i ∈ span lo hi ↔ lo ≤ i ∧ i < hi := by
  simp only [span, List.mem_range'_1]
  omega

end PolyProjection
