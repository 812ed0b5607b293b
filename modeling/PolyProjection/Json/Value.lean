import PolyProjection.Decimal.Basic

/-! JSON texts as trees. A text that breaks off or is malformed has a tree too, up to the place where it stops
being JSON, so that a reader meets the flaws of a text and its own complaints in the order of the text. -/

namespace PolyProjection

/-- Why a text is not the JSON that its reader expects. -/
inductive Flaw where
  | endOfText
  | malformed
  deriving DecidableEq, Repr

/-- The place where a text stops being JSON: the flaw found by a reader of the value there, and the one found
when the value is skipped, which asks for less. -/
structure Break where
  read : Flaw
  skip : Flaw
  deriving DecidableEq, Repr

/-- A string is absent if it holds half of a surrogate pair. Arrays and objects end with a break unless they
are closed. -/
inductive Json where
  | null
  | bool (b : Bool)
  /-- A number, and whether it is written with neither fraction nor exponent. -/
  | number (value : Decimal) (whole : Bool)
  | string (text : Option String)
  | array (items : List Json) (ending : Option Break)
  | object (members : List (Option String × Json)) (ending : Option Break)
  | broken (place : Break)

end PolyProjection
