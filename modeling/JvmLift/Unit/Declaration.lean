import JvmLift.Tree.Basic
import JvmLift.Type.Source

/-!
Declarations of a reconstructed class.
-/
namespace JvmLift

inductive Visibility where
  | isPublic
  | isProtected
  | packagePrivate
  | isPrivate
  deriving DecidableEq, Repr, Inhabited

inductive ClassKind where
  | ordinary
  | interface
  | enum
  | annotationType
  | module
  | packageInfo
  deriving DecidableEq, Repr, Inhabited

inductive AnnotationValue where
  | int (value : Int32)
  | long (value : Int64)
  | float (value : Single)
  | double (value : Double)
  | string (value : String)
  | bool (value : Bool)
  | char (value : Char)
  | classLit (name : String)
  | enumConst (typeName constant : String)
  | nested (typeName : String) (args : List (String × AnnotationValue))
  | array (values : List AnnotationValue)
  deriving Repr

structure AnnotationUse where
  typeName : String
  args : List (String × AnnotationValue)
  deriving Repr

structure FieldDecl where
  visibility : Visibility
  isStatic : Bool
  isFinal : Bool
  isVolatile : Bool
  isTransient : Bool
  isSynthetic : Bool
  isEnumConstant : Bool
  annotations : List AnnotationUse
  type : SourceType
  name : String
  initializer : Option Expr
  deriving Repr

structure ParameterDecl where
  type : SourceType
  name : String
  isFinal : Bool
  isVarargs : Bool
  deriving Repr, Inhabited

/-- A method. One whose code could not be reconstructed has an error text in place of a body. -/
structure MethodDecl where
  visibility : Visibility
  isStatic : Bool
  isFinal : Bool
  isAbstract : Bool
  isSynchronized : Bool
  isNative : Bool
  isDefault : Bool
  isSynthetic : Bool
  isBridge : Bool
  annotations : List AnnotationUse
  typeParameters : List TypeParameter
  returnType : SourceType
  name : String
  descriptor : String
  parameters : List ParameterDecl
  thrown : List SourceType
  body : Option MethodBody
  error : Option String
  deriving Repr, Inhabited

structure ClassDecl where
  kind : ClassKind
  visibility : Visibility
  isFinal : Bool
  isAbstract : Bool
  isStatic : Bool
  isSynthetic : Bool
  annotations : List AnnotationUse
  typeParameters : List TypeParameter
  internalName : String
  name : String
  superClass : Option SourceType
  interfaces : List SourceType
  fields : List FieldDecl
  methods : List MethodDecl
  sourceFile : Option String
  deriving Repr, Inhabited

def Visibility.name : Visibility → String
  | .isPublic => "Public"
  | .isProtected => "Protected"
  | .packagePrivate => "PackagePrivate"
  | .isPrivate => "Private"

def ClassKind.name : ClassKind → String
  | .ordinary => "Class"
  | .interface => "Interface"
  | .enum => "Enum"
  | .annotationType => "Annotation"
  | .module => "Module"
  | .packageInfo => "PackageInfo"

def MethodDecl.isConstructor (m : MethodDecl) : Bool := m.name == "<init>"

def holding (marks : List (String × Bool)) : List String := (marks.filter (·.2)).map (·.1)

def FieldDecl.properties (f : FieldDecl) : List String :=
  holding
    [("static", f.isStatic), ("final", f.isFinal), ("volatile", f.isVolatile),
      ("transient", f.isTransient), ("synthetic", f.isSynthetic), ("enum", f.isEnumConstant)]

def MethodDecl.properties (m : MethodDecl) : List String :=
  holding
    [("static", m.isStatic), ("final", m.isFinal), ("abstract", m.isAbstract),
      ("synchronized", m.isSynchronized), ("native", m.isNative), ("default", m.isDefault),
      ("synthetic", m.isSynthetic), ("bridge", m.isBridge), ("constructor", m.isConstructor)]

def ClassDecl.properties (c : ClassDecl) : List String :=
  holding
    [("final", c.isFinal), ("abstract", c.isAbstract), ("static", c.isStatic),
      ("synthetic", c.isSynthetic)]

def MethodDecl.isApproximate (m : MethodDecl) : Bool := m.error.isSome || m.body.any (·.approximate)

end JvmLift
