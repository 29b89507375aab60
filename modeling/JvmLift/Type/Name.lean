/-!
Internal class names: package segments and class name joined by slashes, nested classes by dollars.
-/
namespace JvmLift.InternalName

def replaceChar (a b : Char) (s : String) : String :=
  String.ofList (s.toList.map fun c => if c = a then b else c)

def toSource (name : String) : String := replaceChar '/' '.' name

/-- What stands before and after the last occurrence of a character, if it occurs. -/
def splitLast (c : Char) (s : List Char) : Option (List Char × List Char) :=
  match s.reverse.span (· ≠ c) with
  | (_, []) => none
  | (tail, _ :: init) => some (init.reverse, tail.reverse)

def simple (name : String) : String :=
  match splitLast '/' name.toList with
  | some (_, tail) => String.ofList tail
  | none => name

def package? (name : String) : Option String :=
  (splitLast '/' name.toList).map fun (init, _) => String.ofList init

/-- Dotted package and simple name of the innermost class. A trailing dollar belongs to the name. -/
def split (name : String) : Option String × String :=
  let last := simple name
  let innermost :=
    match splitLast '$' last.toList with
    | some (_, []) | none => last
    | some (_, tail) => String.ofList tail
  ((package? name).map toSource, innermost)

end JvmLift.InternalName
