import JvmLift.Instruction.Basic
import JvmLift.Type.Descriptor

/-!
Expressions: computations that give a value.
-/
namespace JvmLift

inductive LogicalOp where
  | and
  | or
  deriving DecidableEq, Repr

inductive InvokeKind where
  | virtual
  | special
  | static
  | interface
  deriving DecidableEq, Repr

/-- A local slot, a stack entry kept across a merge, or a value that is used more than once. -/
inductive VarOrigin where
  | slot
  | stack
  | temp
  deriving DecidableEq, Repr

structure LocalVar where
  index : UInt16
  name : Option String
  ty : ErasedType
  origin : VarOrigin
  deriving DecidableEq, Repr

/-- `caught` is the exception a handler starts with, `returnAddress` what a subroutine starts with,
and `uninitNew` an object whose constructor has not run, named by the offset that allocated it. -/
inductive Expr where
  | intLit (value : Int32)
  | longLit (value : Int64)
  | floatLit (value : Single)
  | doubleLit (value : Double)
  | boolLit (value : Bool)
  | charLit (value : UInt16)
  | stringLit (value : String)
  | classLit (ty : ErasedType)
  | nullLit
  | thisRef
  | localVar (var : LocalVar)
  | caught (name : String)
  | returnAddress
  | dupLoad (id : Nat)
  | binary (op : ArithOp) (ty : ErasedType) (left right : Expr)
  | neg (operand : Expr)
  | not (operand : Expr)
  | logical (op : LogicalOp) (left right : Expr)
  | compare (op : CmpOp) (left right : Expr)
  | cmpResult (left right : Expr)
  | cast (ty : ErasedType) (operand : Expr)
  | instanceOf (operand : Expr) (ty : ErasedType)
  | ternary (cond ifTrue ifFalse : Expr)
  | fieldGet (owner name : String) (ty : ErasedType) (object : Option Expr)
  | call (kind : InvokeKind) (owner name descriptor : String) (receiver : Option Expr)
      (args : List Expr)
  | dynamic (name descriptor : String) (bootstrap : UInt16) (args : List Expr)
  | new (className descriptor : String) (args : List Expr)
  | uninitNew (className : String) (alloc : Nat)
  | newArray (ty : ErasedType) (dims : List Expr)
  | arrayLength (array : Expr)
  | arrayLoad (array index : Expr) (ty : ErasedType)
  | unresolved (text : String)
  deriving Repr

namespace LocalVar

def ofSlot (index : UInt16) (name : Option String) (ty : ErasedType) : LocalVar :=
  ⟨index, name, ty, .slot⟩

def ofStack (n : UInt16) (ty : ErasedType) : LocalVar := ⟨n, some s!"stack{n}", ty, .stack⟩

def ofTemp (n : UInt16) (ty : ErasedType) : LocalVar := ⟨n, some s!"tmp{n}", ty, .temp⟩

/-- The same storage and, when both are named, the same name. -/
def same (v w : LocalVar) : Bool :=
  v.origin == w.origin && v.index == w.index &&
    match v.name, w.name with
    | some a, some b => a == b
    | _, _ => true

def displayName (v : LocalVar) : String := v.name.getD s!"var{v.index}"

end LocalVar

def ErasedType.ofValueKind : ValueKind → ErasedType
  | .int => .int
  | .long => .long
  | .float => .float
  | .double => .double
  | .reference => .object

def ErasedType.ofArrayKind : ArrayKind → ErasedType
  | .int => .int
  | .long => .long
  | .float => .float
  | .double => .double
  | .reference => .object
  | .byte => .byte
  | .char => .char
  | .short => .short

namespace Expr

def resultOf (descriptor : String) : ErasedType :=
  ((Descriptor.parseMethod? descriptor).map (·.result)).getD .unknown

def ty : Expr → ErasedType
  | .intLit _ => .int
  | .longLit _ => .long
  | .floatLit _ => .float
  | .doubleLit _ => .double
  | .boolLit _ => .boolean
  | .charLit _ => .char
  | .stringLit _ => .reference "java/lang/String"
  | .classLit _ => .reference "java/lang/Class"
  | .nullLit => .null
  | .thisRef | .returnAddress | .dupLoad _ | .unresolved _ => .unknown
  | .localVar v => v.ty
  | .caught name => .reference name
  | .binary _ t _ _ => t
  | .neg e => e.ty
  | .not _ | .logical .. | .compare .. | .instanceOf .. => .boolean
  | .cmpResult .. | .arrayLength _ => .int
  | .cast t _ => t
  | .ternary _ a b =>
      match a.ty with
      | .null | .unknown => b.ty
      | t => t
  | .fieldGet _ _ t _ | .arrayLoad _ _ t | .newArray t _ => t
  | .call _ _ _ descriptor _ _ | .dynamic _ descriptor _ _ => resultOf descriptor
  | .new name _ _ | .uninitNew name _ => .reference name

def isBoolean (e : Expr) : Bool := e.ty = .boolean

/-- Values that may be evaluated any number of times, in any order. -/
def isPure : Expr → Bool
  | .intLit _ | .longLit _ | .floatLit _ | .doubleLit _ | .boolLit _ | .charLit _ | .stringLit _
  | .classLit _ | .nullLit | .thisRef | .localVar _ | .caught _ | .returnAddress => true
  | _ => false

def isEffect : Expr → Bool
  | .call .. | .dynamic .. | .new .. | .newArray .. | .unresolved _ => true
  | _ => false

end Expr

end JvmLift
