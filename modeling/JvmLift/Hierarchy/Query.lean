import Std.Data.TreeMap
import Std.Data.TreeSet
import JvmLift.Hierarchy.Resolver

/-!
Sequences of questions to one class path. A session looks every class up once and remembers what it
found, and it keeps the names it could not find.
-/
namespace JvmLift

/-- A question. `withClass` may ask anything about one class. -/
inductive Query (ρ : Type) where
  | withClass (name : String) (f : ClassFile → ρ)
  | superClass (name : String)
  | superChain (name : String)
  | isAssignable (source target : String)
  | overloads (owner name : String) (arity : Nat)
  | fieldType (owner name : String)
  | switchMap (holder member : String)

inductive Answer (ρ : Type) where
  | value (r : Option ρ)
  | name (name : Option String)
  | names (names : List String)
  | bool (value : Bool)
  | count (n : Nat)
  | type (ty : Option ErasedType)
  | ordinals (map : Option OrdinalMap)
  deriving DecidableEq, Repr

variable {ρ α : Type}

def Query.inquiry (limit : Nat) : Query ρ → Inquiry (Answer ρ)
  | .withClass name f => do return .value ((← Inquiry.find name).map f)
  | .superClass name => .name <$> Inquiry.superName name
  | .superChain name => .names <$> Inquiry.superChain limit name
  | .isAssignable source target => .bool <$> Inquiry.isAssignable limit source target
  | .overloads owner name arity => .count <$> Inquiry.overloads limit owner name arity
  | .fieldType owner name => .type <$> Inquiry.fieldType limit owner name
  | .switchMap holder member => .ordinals <$> Inquiry.switchMap holder member

structure Session where
  path : ClassPath
  current : Option (String × ClassFile)
  known : Std.TreeMap String (Option ClassFile)
  missed : Std.TreeSet String

namespace Session

def ofPath (path : ClassPath) (current : Option ClassFile) : Session :=
  ⟨path, current.bind (·.named?), ∅, ∅⟩

def gaps (s : Session) : List String := s.missed.toList

/-- Looks a class up on the path, unless it was looked up before. -/
def load (s : Session) (name : String) : Option ClassFile × Session :=
  match s.known[name]? with
  | some found => (found, s)
  | none =>
      let found := s.path.load? name
      let missed := if found.isNone then s.missed.insert name else s.missed
      (found, { s with known := s.known.insert name found, missed })

def find (s : Session) (name : String) : Option ClassFile × Session :=
  match s.current with
  | some (own, c) => if own = name then (some c, s) else s.load name
  | none => s.load name

def lookUp (s : Session) (names : List String) : Session := names.foldl (fun s name => (s.find name).2) s

/-- A resolver that goes to what was looked up before, and only then to the class path. -/
def resolver (s : Session) (r : Resolver) : Resolver := { r with loaded := s.known.toList ++ r.loaded }

def perform : Inquiry α → Session → α × Session
  | .done a, s => (a, s)
  | .look name next, s =>
      let (found, s) := s.find name
      perform (next found) s

def ask (s : Session) (q : Query ρ) : Answer ρ × Session := perform (q.inquiry s.path.limit) s

def askAll (s : Session) : List (Query ρ) → List (Answer ρ) × Session
  | [] => ([], s)
  | q :: qs =>
      let (a, s) := s.ask q
      let (as, s) := s.askAll qs
      (a :: as, s)

end Session

end JvmLift
