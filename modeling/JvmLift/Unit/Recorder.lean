import JvmLift.Unit.Events

/-!
A recorder of events that checks their nesting.
-/
namespace JvmLift

/-- All events, the sections open now with the innermost first, and a text for each end that did not
fit. -/
structure Recorder where
  events : List Event
  opened : List Section
  violations : List String
  deriving DecidableEq, Repr

def DeclKind.name : DeclKind → String
  | .type => "Type"
  | .field => "Field"
  | .method => "Method"
  | .constructor => "Constructor"
  | .package => "Package"
  | .module => "Module"

def Section.text : Section → String
  | .declaration kind => "Declaration(" ++ kind.name ++ ")"
  | .indent => "Indent"
  | .comment => "Comment"
  | .javadoc => "Javadoc"
  | .error => "Error"
  | .imports => "Imports"

namespace Recorder

def empty : Recorder := ⟨[], [], []⟩

/-- Every start had its end, in the right order. -/
def isWellNested (r : Recorder) : Bool := r.violations.isEmpty && r.opened.isEmpty

def openText : Option Section → String
  | some s => "Some(" ++ s.text ++ ")"
  | none => "None"

def violation (closed : Section) (innermost : Option Section) : String :=
  closed.text ++ " closed while " ++ openText innermost ++ " was open"

def close (r : Recorder) (s : Section) : Recorder :=
  if r.opened.head? = some s then { r with opened := r.opened.tail }
  else
    { r with
      opened := r.opened.tail
      violations := r.violations ++ [violation s r.opened.head?] }

def track (r : Recorder) (e : Event) : Recorder :=
  match e.opened?, e.closed? with
  | some s, _ => { r with opened := s :: r.opened }
  | none, some s => r.close s
  | none, none => r

def record (r : Recorder) (e : Event) : Recorder :=
  let r := r.track e
  { r with events := r.events ++ [e] }

def ofEvents (es : List Event) : Recorder :=
  { es.foldl track empty with events := es }

end Recorder

end JvmLift
