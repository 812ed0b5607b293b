import PolyProjection.Projection.Basic
import PolyProjection.Storage.Record

/-! Saved projections: the problem and the settings, without the state of the projection. An infinite bound is
saved as the largest number of its sign, and that number is read back as infinite. -/

namespace PolyProjection.Storage

open Json Json.Codec

/-- The largest finite number. -/
def largest : Float :=
  1.7976931348623157e308

def boundToFloat : Bound Float → Float
  | .negInf => -largest
  | .finite v => v
  | .posInf => largest

def boundOfFloat (x : Float) : Bound Float :=
  if x == largest then .posInf else if x == -largest then .negInf else .finite x

def bound : Codec (Bound Float) :=
  float.via (fun x => some (boundOfFloat x)) boundToFloat

/-- A problem and its settings. -/
structure Saved where
  a : SparseMatrix Float
  bl : Array (Bound Float)
  bu : Array (Bound Float)
  lo : Array (Bound Float)
  hi : Array (Bound Float)
  y : Array Float
  tree : BlockTree
  settings : Settings Float

def saved : Codec Saved :=
  .record
    [field "A" matrix (·.a) fun v s => { s with a := v },
      field "bl" (array bound) (·.bl) fun v s => { s with bl := v },
      field "bu" (array bound) (·.bu) fun v s => { s with bu := v },
      field "lo" (array bound) (·.lo) fun v s => { s with lo := v },
      field "hi" (array bound) (·.hi) fun v s => { s with hi := v },
      field "y" (array float) (·.y) fun v s => { s with y := v },
      field "tree" tree (·.tree) fun v s => { s with tree := v },
      field "settings" settings (·.settings) fun v s => { s with settings := v }]
    false ⟨⟨0, 0, #[], #[], #[]⟩, #[], #[], #[], #[], #[], .single 0 0, .default⟩

/-- Why a text gives no projection. -/
inductive LoadError where
  | text (flaw : Flaw)
  | problem (cause : ProblemError)
  | engine (cause : EngineError)
  deriving DecidableEq, Repr

/-- The problem with its tree. -/
def Saved.problem (s : Saved) : Checked (Except ProblemError (Problem Float)) := do
  match ← Problem.create s.a s.bl s.bu s.lo s.hi s.y with
  | .error e => return .error e
  | .ok p => p.withBlockTree s.tree

/-- The text of a projection's problem and settings. -/
def save {σ : Type} (s : Projection Float σ) : String :=
  let p := s.engine.problem
  saved.write ⟨p.a, p.bl, p.bu, p.lo, p.hi, p.y, p.tree, s.engine.settings⟩

/-- A fresh projection from a saved text, under the given settings if there are any and else under the saved ones. -/
def load {σ : Type} (text : String) (settings : Option (Settings Float)) :
    Checked (Except LoadError (Projection Float σ)) := do
  match saved.ofText text with
  | .error flaw => return .error (.text flaw)
  | .ok s =>
    match ← s.problem with
    | .error e => return .error (.problem e)
    | .ok p => return (← Projection.create p (settings.getD s.settings)).mapError .engine

end PolyProjection.Storage
