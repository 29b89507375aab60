import JvmLift.Hierarchy.Inquiry

/-!
Answers to questions about classes, from the class at hand and a class path. The names of classes that
cannot be found are reported as gaps.
-/
namespace JvmLift

structure ClassPath where
  classes : List (String × Bytes)
  deriving Repr

namespace ClassPath

def bytes? (path : ClassPath) (name : String) : Option Bytes := path.classes.lookup name

/-- A class file that cannot be read counts as absent. -/
def load? (path : ClassPath) (name : String) : Option ClassFile :=
  (path.bytes? name).bind fun bytes => (ClassFile.parse bytes).toOption

def limit (path : ClassPath) : Nat := path.classes.length + 1

end ClassPath

def ClassFile.named? (c : ClassFile) : Option (String × ClassFile) := do
  return (← c.thisName.toOption, c)

/-- Classes that can be looked up: the current one by its own name, others from a class path. -/
structure Resolver where
  current : Option (String × ClassFile)
  loaded : List (String × Option ClassFile)
  deriving Repr

namespace Resolver

variable {α : Type}

def ofPath (path : ClassPath) (current : Option ClassFile) : Resolver where
  current := current.bind (·.named?)
  loaded := path.classes.map fun (name, bytes) => (name, (ClassFile.parse bytes).toOption)

def find? (r : Resolver) (name : String) : Option ClassFile :=
  match r.current with
  | some (own, c) => if own = name then some c else (r.loaded.lookup name).join
  | none => (r.loaded.lookup name).join

def size (r : Resolver) : Nat := r.loaded.length + 1

def answer (r : Resolver) (q : Inquiry α) : α := q.answer r.find?

def lookups (r : Resolver) (q : Inquiry α) : List String := q.lookups r.find?

def isAssignable (r : Resolver) (source target : String) : Bool :=
  r.answer (.isAssignable r.size source target)

def overloads (r : Resolver) (owner name : String) (arity : Nat) : Nat :=
  r.answer (.overloads r.size owner name arity)

def switchMap? (r : Resolver) (holder member : String) : Option OrdinalMap :=
  r.answer (.switchMap holder member)

end Resolver

end JvmLift
