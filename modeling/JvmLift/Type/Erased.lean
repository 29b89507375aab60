/-!
Erased types, the types of descriptors and of values on the operand stack.
-/
namespace JvmLift

/-- A type without generics. `null` is the type of the null reference and `unknown` stands for a
type that could not be determined. -/
inductive ErasedType where
  | int
  | long
  | float
  | double
  | byte
  | char
  | short
  | boolean
  | void
  | reference (name : String)
  | array (element : ErasedType)
  | null
  | unknown
  deriving DecidableEq, Repr, Inhabited

namespace ErasedType

def object : ErasedType := .reference "java/lang/Object"

def isWide : ErasedType → Bool
  | .long | .double => true
  | _ => false

def isIntLike : ErasedType → Bool
  | .int | .byte | .char | .short | .boolean => true
  | _ => false

def isReference : ErasedType → Bool
  | .reference _ => true
  | _ => false

def element : ErasedType → ErasedType
  | .array t => t
  | _ => .unknown

def className? : ErasedType → Option String
  | .reference name => some name
  | .array t => t.className?
  | _ => none

def ofArrayCode (code : UInt8) : ErasedType :=
  match code.toNat with
  | 4 => .boolean
  | 5 => .char
  | 6 => .float
  | 7 => .double
  | 8 => .byte
  | 9 => .short
  | 10 => .int
  | 11 => .long
  | _ => .unknown

end ErasedType

end JvmLift
