import PolyProjection.Json.Reader

/-! Reading values of known types from a JSON tree. A reader goes through the tree in the order of the text and
answers with the first flaw: of the text, or of a value that is not of the expected type. -/

namespace PolyProjection.Json

/-- A reader of values. -/
abbrev Decoder (α : Type) := Json → Except Flaw α

/-- The answer to a value of an unexpected type: an unfinished word is read to its end first. -/
def unexpected {α : Type} : Json → Except Flaw α
  | .broken b => .error b.read
  | _ => .error .malformed

mutual

/-- Go over a value whose content does not matter. -/
def skip : Json → Except Flaw Unit
  | .broken b => .error b.skip
  | .array items ending => do
    skipItems items
    skipEnding ending
  | .object members ending => do
    skipMembers members
    skipEnding ending
  | _ => .ok ()

def skipItems : List Json → Except Flaw Unit
  | [] => .ok ()
  | v :: rest => do
    v.skip
    skipItems rest

def skipMembers : List (Option String × Json) → Except Flaw Unit
  | [] => .ok ()
  | (_, v) :: rest => do
    v.skip
    skipMembers rest

def skipEnding : Option Break → Except Flaw Unit
  | none => .ok ()
  | some b => .error b.skip

end

def closed : Option Break → Except Flaw Unit
  | none => .ok ()
  | some b => .error b.read

def bool? : Decoder Bool
  | .bool b => .ok b
  | j => unexpected j

/-- A number that a double can hold. -/
def float? : Decoder Float
  | .number d _ =>
    let x := d.toFloat
    if x.isInf then .error .malformed else .ok x
  | j => unexpected j

/-- A natural number below `bound`, written with neither sign nor fraction nor exponent. -/
def natBelow? (bound : Nat) : Decoder Nat
  | .number d whole =>
    if whole && !d.negative && d.coefficient < bound then .ok d.coefficient else .error .malformed
  | j => unexpected j

def word32? : Decoder Nat := natBelow? UInt32.size

def word64? : Decoder Nat := natBelow? UInt64.size

def arrayOf? {α : Type} (item : Decoder α) : Decoder (Array α)
  | .array items ending => do
    let xs ← items.foldlM (fun xs v => return xs.push (← item v)) #[]
    closed ending
    return xs
  | j => unexpected j

/-- A whole text: a value and nothing after it but blanks. -/
def decode {α : Type} (d : Decoder α) (text : String) : Except Flaw α := do
  let (tree, rest) := ofText text
  let x ← d tree
  match rest.map skipBlanks with
  | some [] => return x
  | _ => .error .malformed

end PolyProjection.Json
