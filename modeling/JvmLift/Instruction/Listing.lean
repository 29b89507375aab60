import JvmLift.Instruction.Basic

/-!
Operations as text, for the listing of a method that could not be reconstructed: the name of the
operation and its operands, some of them labelled.
-/
namespace JvmLift

def ValueKind.name : ValueKind → String
  | .int => "Int"
  | .long => "Long"
  | .float => "Float"
  | .double => "Double"
  | .reference => "Reference"

def ArrayKind.name : ArrayKind → String
  | .int => "Int"
  | .long => "Long"
  | .float => "Float"
  | .double => "Double"
  | .reference => "Reference"
  | .byte => "Byte"
  | .char => "Char"
  | .short => "Short"

def NarrowKind.name : NarrowKind → String
  | .byte => "Byte"
  | .char => "Char"
  | .short => "Short"

def ArithOp.name : ArithOp → String
  | .add => "Add"
  | .sub => "Sub"
  | .mul => "Mul"
  | .div => "Div"
  | .rem => "Rem"
  | .shl => "Shl"
  | .shr => "Shr"
  | .ushr => "Ushr"
  | .and => "And"
  | .or => "Or"
  | .xor => "Xor"

def ArithOp.symbol : ArithOp → String
  | .add => "+"
  | .sub => "-"
  | .mul => "*"
  | .div => "/"
  | .rem => "%"
  | .shl => "<<"
  | .shr => ">>"
  | .ushr => ">>>"
  | .and => "&"
  | .or => "|"
  | .xor => "^"

def CmpOp.name : CmpOp → String
  | .eq => "Eq"
  | .ne => "Ne"
  | .lt => "Lt"
  | .ge => "Ge"
  | .gt => "Gt"
  | .le => "Le"

def CmpOp.symbol : CmpOp → String
  | .eq => "=="
  | .ne => "!="
  | .lt => "<"
  | .ge => ">="
  | .gt => ">"
  | .le => "<="

namespace Operation

def name : Operation Nat → String
  | .nop => "Nop"
  | .nullConst => "AconstNull"
  | .intConst _ => "Iconst"
  | .longConst _ => "Lconst"
  | .floatConst _ => "Fconst"
  | .doubleConst _ => "Dconst"
  | .loadConst _ => "Ldc"
  | .loadWideConst _ => "Ldc2W"
  | .load .. => "Load"
  | .store .. => "Store"
  | .arrayLoad _ => "ArrayLoad"
  | .arrayStore _ => "ArrayStore"
  | .pop => "Pop"
  | .pop2 => "Pop2"
  | .dup => "Dup"
  | .dupX1 => "DupX1"
  | .dupX2 => "DupX2"
  | .dup2 => "Dup2"
  | .dup2X1 => "Dup2X1"
  | .dup2X2 => "Dup2X2"
  | .swap => "Swap"
  | .arith .. => "Arith"
  | .neg _ => "Neg"
  | .increment .. => "Iinc"
  | .convert .. => "Convert"
  | .narrow _ => "Narrow"
  | .longCompare => "Lcmp"
  | .floatCompare _ => "Fcmp"
  | .doubleCompare _ => "Dcmp"
  | .ifZero .. => "IfZero"
  | .ifIntCmp .. => "IfIcmp"
  | .ifRefCmp .. => "IfAcmp"
  | .ifNull _ => "IfNull"
  | .ifNonNull _ => "IfNonNull"
  | .goto _ => "Goto"
  | .jsr _ => "Jsr"
  | .ret _ => "Ret"
  | .tableSwitch .. => "TableSwitch"
  | .lookupSwitch .. => "LookupSwitch"
  | .leave _ => "Return"
  | .getStatic _ => "GetStatic"
  | .putStatic _ => "PutStatic"
  | .getField _ => "GetField"
  | .putField _ => "PutField"
  | .invokeVirtual _ => "InvokeVirtual"
  | .invokeSpecial _ => "InvokeSpecial"
  | .invokeStatic _ => "InvokeStatic"
  | .invokeInterface .. => "InvokeInterface"
  | .invokeDynamic _ => "InvokeDynamic"
  | .new _ => "New"
  | .newArray _ => "NewArray"
  | .newRefArray _ => "ANewArray"
  | .arrayLength => "ArrayLength"
  | .throw => "AThrow"
  | .checkCast _ => "CheckCast"
  | .instanceOf _ => "InstanceOf"
  | .monitorEnter => "MonitorEnter"
  | .monitorExit => "MonitorExit"
  | .newMultiArray .. => "MultiANewArray"

def listText (items : List String) : String := "[" ++ ", ".intercalate items ++ "]"

def operandTexts : Operation Nat → List (Option String × String)
  | .intConst v => [(none, toString v.toInt)]
  | .longConst v => [(none, toString v.val)]
  | .floatConst v => [(none, toString v.val ++ ".0")]
  | .doubleConst v => [(none, toString v.val ++ ".0")]
  | .loadConst i | .loadWideConst i | .getStatic i | .putStatic i | .getField i | .putField i
  | .invokeVirtual i | .invokeSpecial i | .invokeStatic i | .invokeDynamic i | .new i
  | .newRefArray i | .checkCast i | .instanceOf i => [(none, toString i)]
  | .load k n | .store k n => [(none, k.name), (none, toString n)]
  | .arrayLoad k | .arrayStore k => [(none, k.name)]
  | .arith k op => [(none, k.name), (none, op.name)]
  | .neg k => [(none, k.name)]
  | .increment n v => [(some "index", toString n), (some "value", toString v.toInt)]
  | .convert a b => [(some "from", a.name), (some "to", b.name)]
  | .narrow k => [(none, k.name)]
  | .floatCompare g | .doubleCompare g => [(some "nan_greater", toString g)]
  | .ifZero op t | .ifIntCmp op t | .ifRefCmp op t => [(none, op.name), (none, toString t)]
  | .ifNull t | .ifNonNull t | .goto t | .jsr t => [(none, toString t)]
  | .ret n => [(none, toString n)]
  | .tableSwitch d low high ts =>
      [(some "default", toString d), (some "low", toString low.toInt), (some "high", toString high.toInt),
        (some "targets", listText (ts.map toString))]
  | .lookupSwitch d ps =>
      [(some "default", toString d),
        (some "pairs", listText (ps.map fun (k, t) => "(" ++ toString k.toInt ++ ", " ++ toString t ++ ")"))]
  | .leave none => [(none, "None")]
  | .leave (some k) => [(none, "Some(" ++ k.name ++ ")")]
  | .invokeInterface i c => [(some "index", toString i), (some "count", toString c)]
  | .newArray c => [(none, toString c)]
  | .newMultiArray i d => [(some "index", toString i), (some "dimensions", toString d)]
  | _ => []

/-- The text of an operation: labelled operands in braces, others in parentheses. -/
def text (op : Operation Nat) : String :=
  let operands := op.operandTexts
  let items := operands.map fun
    | (some label, value) => label ++ ": " ++ value
    | (none, value) => value
  match operands with
  | [] => op.name
  | (some _, _) :: _ => op.name ++ " \x7b " ++ ", ".intercalate items ++ " \x7d"
  | (none, _) :: _ => op.name ++ "(" ++ ", ".intercalate items ++ ")"

end Operation

end JvmLift
