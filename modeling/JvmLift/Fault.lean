import JvmLift.Text.Quoted

/-!
What can go wrong, by cause, and the message for each cause.
-/
namespace JvmLift

inductive FormatFault where
  | unreadable
  | poolIndexOutOfRange (index : UInt16) (size : Nat)
  | poolKindMismatch (index : UInt16) (expected found : String)
  | attributeLength (name : String) (declared parsed : Nat)
  | malformedAttribute (name : String)
  deriving DecidableEq, Repr

/-- Faults in a code array. Each carries the offset of the instruction. -/
inductive DecodeFault where
  | offsetOutOfRange (offset codeLength : Nat)
  | truncated (offset : Nat)
  | unknownOpcode (offset : Nat) (opcode : UInt8)
  | invalidSwitch (offset : Nat) (low high : Int32)
  | invalidWide (offset : Nat) (opcode : UInt8)
  | badBranchTarget (offset : Nat) (target : Int)
  deriving DecidableEq, Repr

inductive LiftFault where
  | format (fault : FormatFault)
  | decode (fault : DecodeFault)
  | stackUnderflow (offset : Nat)
  | categoryMismatch (offset : Nat) (operation : String)
  | badDescriptor (offset : Nat) (descriptor : String)
  | stackHeight (block expected found : Nat)
  | malformedHandler (handler : Nat)
  | noCode
  | classNotFound (name : String)
  deriving DecidableEq, Repr

def FormatFault.message : FormatFault → String
  | .unreadable => "malformed class file"
  | .poolIndexOutOfRange index size =>
      s!"constant pool index {index} is out of range (pool size {size})"
  | .poolKindMismatch index expected found =>
      s!"constant pool index {index}: expected {expected}, found {found}"
  | .attributeLength name declared parsed =>
      s!"attribute {name}: declared length {declared}, parsed {parsed}"
  | .malformedAttribute name => s!"attribute {name} is malformed"

def DecodeFault.message : DecodeFault → String
  | .offsetOutOfRange offset codeLength =>
      s!"offset {offset} is outside the code array (length {codeLength})"
  | .truncated offset => s!"instruction at {offset} runs past the end of the code array"
  | .unknownOpcode offset opcode => s!"unknown opcode {Text.hexByte opcode} at {offset}"
  | .invalidSwitch offset low high =>
      s!"invalid switch bounds at {offset}: low {low.toInt}, high {high.toInt}"
  | .invalidWide offset opcode => s!"opcode {Text.hexByte opcode} cannot follow wide at {offset}"
  | .badBranchTarget offset target =>
      s!"branch at {offset} targets {target}, outside the code array"

def LiftFault.message : LiftFault → String
  | .format fault => fault.message
  | .decode fault => fault.message
  | .stackUnderflow offset => s!"operand stack underflow at offset {offset}"
  | .categoryMismatch offset operation =>
      s!"category mismatch at offset {offset}: {operation} on a category 2 value"
  | .badDescriptor offset descriptor =>
      s!"malformed descriptor {Text.quoted descriptor} at offset {offset}"
  | .stackHeight block expected found =>
      s!"inconsistent stack height entering block {block}: {expected} vs {found}"
  | .malformedHandler handler => s!"handler at {handler} is outside the code array"
  | .noCode => "method has no code"
  | .classNotFound name => s!"class {name} not found"

end JvmLift
