import PolyProjection.Json.Decode
import PolyProjection.Json.Printer

/-! Types whose values are written as JSON and read from it. A record is given by its fields, in the order in which
they are written. -/

namespace PolyProjection.Json

structure Codec (α : Type) where
  read : Decoder α
  write : α → String

namespace Codec

variable {α β : Type}

/-- The value that a whole text stands for. -/
def ofText (c : Codec α) (text : String) : Except Flaw α :=
  decode c.read text

def float : Codec Float :=
  ⟨float?, ofFloat⟩

def bool : Codec Bool :=
  ⟨bool?, ofBool⟩

def word32 : Codec Nat :=
  ⟨word32?, ofNat⟩

def word64 : Codec Nat :=
  ⟨word64?, ofNat⟩

def array (c : Codec α) : Codec (Array α) :=
  ⟨arrayOf? c.read, ofArray c.write⟩

/-- Values of `β` that are kept as values of `α`, some of which stand for none. -/
def via (c : Codec α) (decode : α → Option β) (encode : β → α) : Codec β where
  read j := do
    match decode (← c.read j) with
    | some x => return x
    | none => .error .malformed
  write x := c.write (encode x)

end Codec

/-- A field of a record of type `σ`. It is read into a record whose other fields may still be missing. -/
structure RecordField (σ : Type) where
  name : String
  read : σ → Decoder σ
  write : σ → String

def field {α σ : Type} (name : String) (c : Codec α) (get : σ → α) (set : α → σ → σ) : RecordField σ :=
  ⟨name, fun s j => return set (← c.read j) s, fun s => c.write (get s)⟩

/-- Read the member of the given name into a record, of which the fields in `seen` have been read already. Only
fields of the record matter, and each of them is given once. -/
def readMember {σ : Type} (fields : List (RecordField σ)) (seen : List String × σ) :
    Option String × Json → Except Flaw (List String × σ)
  | (none, _) => .error .malformed
  | (some key, value) =>
    match fields.find? (·.name == key) with
    | none => do
      value.skip
      return seen
    | some f => if seen.1.contains key then .error .malformed else return (key :: seen.1, ← f.read seen.2 value)

/-- Read a record from an object or from an array of its fields in order. `optional` says whether fields may be
missing; these are as in `start`. -/
def record? {σ : Type} (fields : List (RecordField σ)) (optional : Bool) (start : σ) : Decoder σ
  | .object members ending => do
    let (seen, s) ← members.foldlM (readMember fields) ([], start)
    closed ending
    if optional || seen.length == fields.length then return s else .error .malformed
  | .array items ending => do
    let s ← (fields.zip items).foldlM (fun s p => p.1.read s p.2) start
    if fields.length < items.length then .error .malformed
    closed ending
    if optional || items.length == fields.length then return s else .error .malformed
  | j => unexpected j

def Codec.record {σ : Type} (fields : List (RecordField σ)) (optional : Bool) (start : σ) : Codec σ :=
  ⟨record? fields optional start, fun s => ofFields (fields.map fun f => (f.name, f.write s))⟩

end PolyProjection.Json
