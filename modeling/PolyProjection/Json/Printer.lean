import PolyProjection.Decimal.Text

/-! Compact JSON texts. -/

namespace PolyProjection.Json

/-- The number in its stored form; values without digits have none. -/
def ofFloat (x : Float) : String :=
  if x.isFinite then Decimal.shortest .stored x else "null"

def ofNat (n : Nat) : String :=
  Nat.repr n

def ofBool (b : Bool) : String :=
  if b then "true" else "false"

/-- A string without characters that need an escape. -/
def ofWord (s : String) : String :=
  "\"" ++ s ++ "\""

def ofArray {α : Type} (item : α → String) (xs : Array α) : String :=
  "[" ++ String.intercalate "," (xs.toList.map item) ++ "]"

/-- An object with the given names and texts of values. -/
def ofFields (fields : List (String × String)) : String :=
  "\x7b" ++ String.intercalate "," (fields.map fun f => ofWord f.1 ++ ":" ++ f.2) ++ "\x7d"

end PolyProjection.Json
