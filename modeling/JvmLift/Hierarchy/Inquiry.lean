import JvmLift.Hierarchy.Members

/-!
Questions about classes other than the one at hand. What a question looks up depends on what it has
found before, so it is a tree: it is answered, or it looks a class up and goes on with what was found.
A class that cannot be found makes every answer about it conservative.
-/
namespace JvmLift

inductive Inquiry (α : Type) where
  | done (answer : α)
  | look (name : String) (next : Option ClassFile → Inquiry α)

namespace Inquiry

variable {α β : Type}

def bind : Inquiry α → (α → Inquiry β) → Inquiry β
  | .done a, f => f a
  | .look name next, f => .look name fun c => (next c).bind f

instance : Monad Inquiry where
  pure := .done
  bind := bind

def find (name : String) : Inquiry (Option ClassFile) := .look name .done

def answer (classes : String → Option ClassFile) : Inquiry α → α
  | .done a => a
  | .look name next => (next (classes name)).answer classes

/-- Names that are looked up, in order, where `classes` gives what is found. -/
def lookups (classes : String → Option ClassFile) : Inquiry α → List String
  | .done _ => []
  | .look name next => name :: (next (classes name)).lookups classes

def superName (name : String) : Inquiry (Option String) := do
  return (← find name).bind (·.super?)

/-- Goes on with a chain that ends in `last`, for at most `n` steps and without repetition. -/
def chainFrom : Nat → List String → String → Inquiry (List String)
  | 0, chain, _ => return chain
  | n + 1, chain, last => do
      match ← superName last with
      | some next => if chain.contains next then return chain else chainFrom n (chain ++ [next]) next
      | none => return chain

/-- A class and its superclasses as far as they can be found, where these are at most `limit`. -/
def superChain (limit : Nat) (name : String) : Inquiry (List String) :=
  chainFrom (limit + 1) [name] name

structure Search where
  seen : List String
  found : Bool

/-- Searches upwards for `target`, the superclass before the interfaces, at most `n` levels up. -/
def search (target : String) : Nat → Search → String → Inquiry Search
  | 0, s, _ => return s
  | n + 1, s, name => do
      if s.found then return s
      if name = target then return { s with found := true }
      if s.seen.contains name then return s
      let parents := ((← find name).map (·.parents)).getD []
      parents.reverse.foldlM (search target n) { s with seen := name :: s.seen }

def rootName : String := "java/lang/Object"

/-- The search behind a question of assignability; the trivial cases look nothing up. -/
def assignSearch (limit : Nat) (source target : String) : Inquiry Search :=
  if source = target ∨ target = rootName then return ⟨[], true⟩
  else search target (limit + 1) ⟨[], false⟩ source

/-- Can a value of class `source` be assigned to `target`? A class that cannot be found goes to itself
and the root class only. -/
def isAssignable (limit : Nat) (source target : String) : Inquiry Bool := do
  return (← assignSearch limit source target).found

/-- Number of methods of a name and arity on a class and its superclasses, by descriptor; at least
one. -/
def overloads (limit : Nat) (owner name : String) (arity : Nat) : Inquiry Nat := do
  let found ← (← superChain limit owner).mapM fun cls => do
    return ((← find cls).map (·.descriptorsOf name arity)).getD []
  return max found.flatten.eraseDups.length 1

def fieldType (limit : Nat) (owner name : String) : Inquiry (Option ErasedType) := do
  (← superChain limit owner).findSomeM? fun cls => do
    return (← find cls).bind (·.fieldType? name)

def switchMap (holder member : String) : Inquiry (Option OrdinalMap) := do
  return (← find holder).bind (·.ordinals? member)

end Inquiry

end JvmLift
