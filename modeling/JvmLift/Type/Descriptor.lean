import JvmLift.Text.Grammar
import JvmLift.Type.Erased
import JvmLift.Type.Name

/-!
Descriptors: the written form of erased types and of method types.
-/
namespace JvmLift

structure MethodType where
  params : List ErasedType
  result : ErasedType
  deriving DecidableEq, Repr, Inhabited

namespace ErasedType

def toDescriptor : ErasedType → String
  | .int => "I"
  | .long => "J"
  | .float => "F"
  | .double => "D"
  | .byte => "B"
  | .char => "C"
  | .short => "S"
  | .boolean => "Z"
  | .void => "V"
  | .reference name => "L" ++ name ++ ";"
  | .array t => "[" ++ t.toDescriptor
  | .null | .unknown => "Ljava/lang/Object;"

def displayName : ErasedType → String
  | .int => "int"
  | .long => "long"
  | .float => "float"
  | .double => "double"
  | .byte => "byte"
  | .char => "char"
  | .short => "short"
  | .boolean => "boolean"
  | .void => "void"
  | .reference name => InternalName.toSource name
  | .array t => t.displayName ++ "[]"
  | .null => "null"
  | .unknown => "/* unknown */"

end ErasedType

namespace Descriptor

def fieldType : Rule ErasedType
  | 'B' :: rest => some (.byte, rest)
  | 'C' :: rest => some (.char, rest)
  | 'D' :: rest => some (.double, rest)
  | 'F' :: rest => some (.float, rest)
  | 'I' :: rest => some (.int, rest)
  | 'J' :: rest => some (.long, rest)
  | 'S' :: rest => some (.short, rest)
  | 'Z' :: rest => some (.boolean, rest)
  | 'L' :: rest => (Rule.run (· ≠ ';')).before ';' |>.map .reference <| rest
  | '[' :: rest => (fieldType rest).map fun (t, rest) => (.array t, rest)
  | _ => none

def resultType : Rule ErasedType :=
  Rule.orElse ((Rule.char 'V').map fun _ => .void) fieldType

def methodType : Rule MethodType := fun s => do
  let (params, s) ← ((Rule.many fieldType).before ')').after '(' s
  let (result, s) ← resultType s
  return (⟨params, result⟩, s)

def parseType? (text : String) : Option ErasedType := Rule.whole fieldType text

def parseMethod? (text : String) : Option MethodType := Rule.whole methodType text

/-- The operand of an instruction that names a class: an internal name or an array descriptor. -/
def ofOperand (name : String) : ErasedType :=
  if name.toList.head? = some '[' then (parseType? name).getD .unknown else .reference name

end Descriptor

namespace MethodType

def slotWidth (t : ErasedType) : UInt16 := if t.isWide then 2 else 1

def firstSlot (isStatic : Bool) : UInt16 := if isStatic then 0 else 1

/-- Local slots taken by the receiver and the parameters, in sixteen bits. -/
def parameterSlots (params : List ErasedType) (isStatic : Bool) : UInt16 :=
  params.foldl (fun n t => n + slotWidth t) (firstSlot isStatic)

def assignSlots : UInt16 → List ErasedType → List (UInt16 × ErasedType)
  | _, [] => []
  | slot, t :: ts => (slot, t) :: assignSlots (slot + slotWidth t) ts

end MethodType

end JvmLift
