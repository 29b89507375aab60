import JvmLift.Type.Erased
import JvmLift.Type.Name

/-!
Source types: types as a program writes them, with generics.
-/
namespace JvmLift

inductive Primitive where
  | boolean
  | byte
  | char
  | short
  | int
  | long
  | float
  | double
  deriving DecidableEq, Repr

/-- A type with generics. The owner is the enclosing class type of a member class, and has its
package. -/
inductive SourceType where
  | primitive (p : Primitive)
  | classType (package : Option String) (name : String) (args : List SourceType)
      (owner : Option SourceType)
  | array (element : SourceType)
  | wildcard (bound : Option SourceType) (upper : Bool)
  | typeVar (name : String)
  | void
  deriving Repr, Inhabited

def Primitive.displayName : Primitive → String
  | .boolean => "boolean"
  | .byte => "byte"
  | .char => "char"
  | .short => "short"
  | .int => "int"
  | .long => "long"
  | .float => "float"
  | .double => "double"

namespace SourceType

def raw (package : Option String) (name : String) : SourceType := .classType package name [] none

mutual

def displayName : SourceType → String
  | .primitive p => p.displayName
  | .classType _ name args owner =>
      let base := match owner with
        | some o => o.displayName ++ "." ++ name
        | none => name
      match args with
      | [] => base
      | a :: as => base ++ "<" ++ ", ".intercalate (displayNames (a :: as)) ++ ">"
  | .array t => t.displayName ++ "[]"
  | .wildcard none _ => "?"
  | .wildcard (some t) upper => (if upper then "? extends " else "? super ") ++ t.displayName
  | .typeVar name => name
  | .void => "void"

def displayNames : List SourceType → List String
  | [] => []
  | t :: ts => t.displayName :: displayNames ts

end

/-- Internal name of the erased class, looking through arrays. -/
def internalName? : SourceType → Option String
  | .classType _ name _ (some owner) => owner.internalName?.map fun o => o ++ "$" ++ name
  | .classType (some package) name _ none =>
      some (InternalName.replaceChar '.' '/' package ++ "/" ++ name)
  | .classType none name _ none => some name
  | .array t => t.internalName?
  | _ => none

mutual

/-- Every class a type mentions: itself, its owners, then its arguments. -/
def mentioned : SourceType → List String
  | .classType package name args owner =>
      (internalName? (.classType package name args owner)).toList ++
        (match owner with
          | some o => o.mentioned
          | none => []) ++ mentionedAll args
  | .array t => t.mentioned
  | .wildcard (some t) _ => t.mentioned
  | _ => []

def mentionedAll : List SourceType → List String
  | [] => []
  | t :: ts => t.mentioned ++ mentionedAll ts

end

def isObject : SourceType → Bool
  | .classType (some package) name _ _ => package == "java.lang" && name == "Object"
  | _ => false

def ofInternal (name : String) : SourceType :=
  raw ((InternalName.package? name).map InternalName.toSource) (InternalName.simple name)

/-- The source type of an erased type; an undetermined type is taken as the root class. -/
def ofErased : ErasedType → SourceType
  | .int => .primitive .int
  | .long => .primitive .long
  | .float => .primitive .float
  | .double => .primitive .double
  | .byte => .primitive .byte
  | .char => .primitive .char
  | .short => .primitive .short
  | .boolean => .primitive .boolean
  | .void => .void
  | .reference name => ofInternal name
  | .array t => .array (ofErased t)
  | .null | .unknown => ofInternal "java/lang/Object"

end SourceType

structure TypeParameter where
  name : String
  bounds : List SourceType
  deriving Repr

end JvmLift
