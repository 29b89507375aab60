import JvmLift.Tree.Traverse
import JvmLift.Unit.Declaration

/-!
Use counts of the classes that a unit refers to by name.
-/
namespace JvmLift

structure References where
  counts : List (String × Nat)
  deriving DecidableEq, Repr

namespace References

def empty : References := ⟨[]⟩

def bump (name : String) : List (String × Nat) → List (String × Nat)
  | [] => [(name, 1)]
  | (n, k) :: rest =>
      if name < n then (name, 1) :: (n, k) :: rest
      else if name = n then (n, k + 1) :: rest
      else (n, k) :: bump name rest

/-- Can the text be a class name? Pieces of descriptors and the empty text cannot. -/
def isName (name : String) : Bool := !name.isEmpty && !name.toList.contains ';'

/-- Counts one use of a name; refuses what cannot be one. -/
def add (r : References) (name : String) : Bool × References :=
  if isName name then (true, ⟨bump name r.counts⟩) else (false, r)

def remove (r : References) (name : String) : Option Nat × References :=
  (r.counts.lookup name, ⟨r.counts.filter (·.1 ≠ name)⟩)

def contains (r : References) (name : String) : Bool := (r.counts.lookup name).isSome

def count (r : References) (name : String) : Nat := (r.counts.lookup name).getD 0

def size (r : References) : Nat := r.counts.length

def isEmpty (r : References) : Bool := r.counts.isEmpty

def ofNames (names : List String) : References :=
  names.foldl (fun r name => (r.add name).2) empty

end References

/-! ### Names that declarations and statements mention -/

namespace Expr

def mentioned? : Expr → Option String
  | .classLit t | .cast t _ | .instanceOf _ t | .newArray t _ => t.className?
  | .new name _ _ => some name
  | .fieldGet owner _ _ none => some owner
  | .call _ owner _ _ none _ => some owner
  | _ => none

def mentioned (e : Expr) : List String := e.nodes.filterMap mentioned?

end Expr

namespace Tree

/-- Classes that a statement itself names. -/
def mentionedNames : Tree → List String
  | .declare v _ _ | .forEach v _ _ => v.ty.className?.toList
  | .tryCatch _ _ clauses _ => clauses.flatMap (·.1.types)
  | .switch (.enum name) _ _ => [name]
  | .simple ⟨.fieldStore owner _ _ none _, _, _, _⟩ => [owner]
  | _ => []

def mentioned (t : Tree) : List String :=
  t.nodes.flatMap fun t => t.mentionedNames ++ t.ownNodes.filterMap Expr.mentioned?

end Tree

namespace AnnotationValue

mutual

def mentioned : AnnotationValue → List String
  | .enumConst typeName _ => [typeName]
  | .classLit name => [name]
  | .nested typeName args => typeName :: mentionedArgs args
  | .array values => mentionedValues values
  | _ => []

def mentionedArgs : List (String × AnnotationValue) → List String
  | [] => []
  | (_, v) :: rest => v.mentioned ++ mentionedArgs rest

def mentionedValues : List AnnotationValue → List String
  | [] => []
  | v :: rest => v.mentioned ++ mentionedValues rest

end

end AnnotationValue

def AnnotationUse.mentioned (a : AnnotationUse) : List String :=
  a.typeName :: AnnotationValue.mentionedArgs a.args

def TypeParameter.mentioned (p : TypeParameter) : List String := p.bounds.flatMap (·.mentioned)

def FieldDecl.mentioned (f : FieldDecl) : List String :=
  f.annotations.flatMap (·.mentioned) ++ f.type.mentioned ++
    f.initializer.toList.flatMap (·.mentioned)

def MethodDecl.mentioned (m : MethodDecl) : List String :=
  m.annotations.flatMap (·.mentioned) ++ m.typeParameters.flatMap (·.mentioned) ++
    m.returnType.mentioned ++ m.parameters.flatMap (·.type.mentioned) ++
    m.thrown.flatMap (·.mentioned) ++
    m.body.toList.flatMap fun b => b.stmts.flatMap (·.mentioned)

def ClassDecl.mentioned (c : ClassDecl) : List String :=
  c.annotations.flatMap (·.mentioned) ++ c.typeParameters.flatMap (·.mentioned) ++
    c.superClass.toList.flatMap (·.mentioned) ++ c.interfaces.flatMap (·.mentioned) ++
    c.fields.flatMap (·.mentioned) ++ c.methods.flatMap (·.mentioned)

/-- Use counts of a class; its own name does not count. -/
def References.ofClass (c : ClassDecl) : References :=
  .ofNames (c.mentioned.filter (· ≠ c.internalName))

structure CompilationUnit where
  package : Option String
  decl : ClassDecl
  references : References
  warnings : List String
  deriving Repr

def CompilationUnit.ofDecl (decl : ClassDecl) (warnings : List String) : CompilationUnit :=
  ⟨(InternalName.split decl.internalName).1, decl, .ofClass decl, warnings⟩

def CompilationUnit.isApproximate (u : CompilationUnit) : Bool := u.decl.methods.any (·.isApproximate)

end JvmLift
