import PolyProjection.Json.Value

/-! The words of a JSON text: numbers and strings. -/

namespace PolyProjection.Json

/-- A part of a text that was read, and the text after it unless it was broken. -/
abbrev Piece (α : Type) := α × Option (List Char)

def isBlank (c : Char) : Bool :=
  c == ' ' || c == '\n' || c == '\t' || c == '\r'

def skipBlanks (cs : List Char) : List Char :=
  cs.dropWhile isBlank

def brokenHere (read skip : Flaw) : Piece Json :=
  (.broken ⟨read, skip⟩, none)

/-- The same flaw for every reader. -/
def brokenFor (f : Flaw) : Piece Json :=
  brokenHere f f

/-- The number that a row of digits stands for. -/
def digitsValue (ds : List Char) : Nat :=
  ds.foldl (fun n d => 10 * n + (d.toNat - '0'.toNat)) 0

/-- Digits that are still missing: at the end of the text a reader waits for more. -/
def missingDigits (rest : List Char) : Piece Json :=
  if rest.isEmpty then brokenHere .endOfText .malformed else brokenFor .malformed

/-- The exponent after its mark. -/
def exponentPart (negative : Bool) (coefficient places : Nat) (cs : List Char) : Piece Json :=
  let (down, digits) : Bool × List Char :=
    match cs with
    | '+' :: r => (false, r)
    | '-' :: r => (true, r)
    | r => (false, r)
  let ds := digits.takeWhile Char.isDigit
  let rest := digits.dropWhile Char.isDigit
  if ds.isEmpty then missingDigits rest
  else
    let e : Int := digitsValue ds
    (.number ⟨negative, coefficient, (if down then -e else e) - places⟩ false, some rest)

/-- What follows the digits before the point. -/
def fractionPart (negative : Bool) (whole : List Char) (cs : List Char) : Piece Json :=
  match cs with
  | '.' :: r =>
    let ds := r.takeWhile Char.isDigit
    let rest := r.dropWhile Char.isDigit
    if ds.isEmpty then missingDigits rest
    else
      let coefficient := digitsValue (whole ++ ds)
      match rest with
      | 'e' :: r => exponentPart negative coefficient ds.length r
      | 'E' :: r => exponentPart negative coefficient ds.length r
      | _ => (.number ⟨negative, coefficient, -(ds.length : Int)⟩ false, some rest)
  | 'e' :: r => exponentPart negative (digitsValue whole) 0 r
  | 'E' :: r => exponentPart negative (digitsValue whole) 0 r
  | _ => (.number ⟨negative, digitsValue whole, 0⟩ true, some cs)

/-- A number after its sign. A leading zero stands alone. -/
def numberWord (negative : Bool) (cs : List Char) : Piece Json :=
  let ds := cs.takeWhile Char.isDigit
  let rest := cs.dropWhile Char.isDigit
  if ds.isEmpty then missingDigits rest
  else if ds.head? = some '0' ∧ 1 < ds.length then brokenFor .malformed
  else fractionPart negative ds rest

/-- A word with a fixed spelling. -/
def fixedWord (value : Json) : List Char → List Char → Piece Json
  | [], rest => (value, some rest)
  | _ :: _, [] => brokenFor .endOfText
  | w :: ws, c :: rest => if c = w then fixedWord value ws rest else brokenFor .malformed

def hexDigit? (c : Char) : Option Nat :=
  if c.isDigit then some (c.toNat - '0'.toNat)
  else if 'a' ≤ c ∧ c ≤ 'f' then some (c.toNat - 'a'.toNat + 10)
  else if 'A' ≤ c ∧ c ≤ 'F' then some (c.toNat - 'A'.toNat + 10)
  else none

/-- The code unit that four hexadecimal digits stand for. -/
def codeUnit? (a b c d : Char) : Option Nat := do
  return ((((← hexDigit? a) * 16 + (← hexDigit? b)) * 16 + (← hexDigit? c)) * 16 + (← hexDigit? d))

def escaped? : Char → Option Char
  | '"' => some '"'
  | '\\' => some '\\'
  | '/' => some '/'
  | 'b' => some '\x08'
  | 'f' => some '\x0c'
  | 'n' => some '\n'
  | 'r' => some '\r'
  | 't' => some '\t'
  | _ => none

/-- The characters of a string so far, last one first, absent after half of a surrogate pair; and the first
half of a pair whose second half comes next. -/
structure Spelling where
  chars : Option (List Char)
  high : Option Nat

namespace Spelling

def empty : Spelling := ⟨some [], none⟩

/-- A character that is not the second half of a pair. -/
def push (s : Spelling) (c : Char) : Spelling :=
  if s.high.isSome then ⟨none, none⟩ else ⟨s.chars.map (c :: ·), none⟩

def pushUnit (s : Spelling) (n : Nat) : Spelling :=
  match s.high with
  | some h =>
    if 0xDC00 ≤ n ∧ n ≤ 0xDFFF then
      ⟨s.chars.map (Char.ofNat (0x10000 + (h - 0xD800) * 0x400 + (n - 0xDC00)) :: ·), none⟩
    else ⟨none, none⟩
  | none =>
    if 0xDC00 ≤ n ∧ n ≤ 0xDFFF then ⟨none, none⟩
    else if 0xD800 ≤ n ∧ n ≤ 0xDBFF then ⟨s.chars, some n⟩
    else s.push (Char.ofNat n)

/-- The finished text. -/
def text (s : Spelling) : Option String :=
  if s.high.isSome then none else s.chars.map fun cs => String.ofList cs.reverse

/-- A flaw inside the string. One who reads the string has already stopped at half of a pair. -/
def fail (s : Spelling) (f : Flaw) : Break :=
  ⟨if s.chars.isSome then f else .malformed, f⟩

end Spelling

/-- A string after its opening quote. -/
def stringWord (s : Spelling) : List Char → Except Break (Option String × List Char)
  | [] => .error (s.fail .endOfText)
  | '"' :: rest => .ok (s.text, rest)
  | '\\' :: 'u' :: a :: b :: c :: d :: rest =>
    match codeUnit? a b c d with
    | some n => stringWord (s.pushUnit n) rest
    | none => .error (s.fail .malformed)
  | '\\' :: 'u' :: rest =>
    .error (s.fail (if 4 ≤ rest.foldl (fun n c => n + c.utf8Size) 0 then .malformed else .endOfText))
  | '\\' :: c :: rest =>
    match escaped? c with
    | some e => stringWord (s.push e) rest
    | none => .error (s.fail .malformed)
  | '\\' :: [] => .error (s.fail .endOfText)
  | c :: rest => if c < ' ' then .error (s.fail .malformed) else stringWord (s.push c) rest

end PolyProjection.Json
