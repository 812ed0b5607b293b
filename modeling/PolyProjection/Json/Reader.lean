import PolyProjection.Json.Lexer

/-! The tree of a JSON text. Each step takes a character at least, so the length of the text bounds the number
of steps. -/

namespace PolyProjection.Json

mutual

/-- A value, within the given number of steps. -/
def valueWithin : Nat → List Char → Piece Json
  | 0, _ => brokenFor .malformed
  | steps + 1, cs =>
    match skipBlanks cs with
    | [] => brokenFor .endOfText
    | 'n' :: r => fixedWord .null ['u', 'l', 'l'] r
    | 't' :: r => fixedWord (.bool true) ['r', 'u', 'e'] r
    | 'f' :: r => fixedWord (.bool false) ['a', 'l', 's', 'e'] r
    | '-' :: r => numberWord true r
    | '"' :: r =>
      match stringWord .empty r with
      | .ok (text, rest) => (.string text, some rest)
      | .error b => (.broken b, none)
    | '[' :: r =>
      let ((items, ending), rest) := itemsWithin steps true r
      (.array items ending, rest)
    | '{' :: r =>
      let ((members, ending), rest) := membersWithin steps true r
      (.object members ending, rest)
    | c :: r => if c.isDigit then numberWord false (c :: r) else brokenFor .malformed

/-- The items of an array after its opening bracket, or after an item. -/
def itemsWithin : Nat → Bool → List Char → Piece (List Json × Option Break)
  | 0, _, _ => (([], some ⟨.malformed, .malformed⟩), none)
  | steps + 1, first, cs =>
    match skipBlanks cs with
    | [] => (([], some ⟨.endOfText, .endOfText⟩), none)
    | ']' :: r => (([], none), some r)
    | c :: r =>
      if !first && c != ',' then (([], some ⟨.malformed, .malformed⟩), none)
      else
        let start := if first then c :: r else r
        match first, skipBlanks start with
        | false, ']' :: _ => (([], some ⟨.malformed, .malformed⟩), none)
        | _, _ =>
          match valueWithin steps start with
          | (v, none) => (([v], none), none)
          | (v, some rest) =>
            let ((items, ending), rest) := itemsWithin steps false rest
            ((v :: items, ending), rest)

/-- The members of an object after its opening brace, or after a member. -/
def membersWithin : Nat → Bool → List Char → Piece (List (Option String × Json) × Option Break)
  | 0, _, _ => (([], some ⟨.malformed, .malformed⟩), none)
  | steps + 1, first, cs =>
    match skipBlanks cs with
    | [] => (([], some ⟨.endOfText, .endOfText⟩), none)
    | '}' :: r => (([], none), some r)
    | c :: r =>
      if !first && c != ',' then (([], some ⟨.malformed, .malformed⟩), none)
      else
        match skipBlanks (if first then c :: r else r) with
        | [] => (([], some ⟨.endOfText, .endOfText⟩), none)
        | '"' :: r =>
          match stringWord .empty r with
          | .error b => (([], some b), none)
          | .ok (key, rest) =>
            match skipBlanks rest with
            | [] => (([(key, .broken ⟨.endOfText, .endOfText⟩)], none), none)
            | ':' :: rest =>
              match valueWithin steps rest with
              | (v, none) => (([(key, v)], none), none)
              | (v, some rest) =>
                let ((members, ending), rest) := membersWithin steps false rest
                (((key, v) :: members, ending), rest)
            | _ => (([(key, .broken ⟨.malformed, .malformed⟩)], none), none)
        | _ => (([], some ⟨.malformed, .malformed⟩), none)

end

/-- The tree of a text, and what follows it. -/
def ofText (text : String) : Piece Json :=
  let cs := text.toList
  valueWithin (cs.length + 1) cs

end PolyProjection.Json
