import JvmLift.Text.Grammar
import JvmLift.Type.Source

/-!
Generic signatures of classes, methods and fields. A signature is read whole or not at all.
-/
namespace JvmLift

structure ClassSignature where
  typeParameters : List TypeParameter
  superClass : SourceType
  interfaces : List SourceType
  deriving Repr

structure MethodSignature where
  typeParameters : List TypeParameter
  params : List SourceType
  result : SourceType
  throws : List SourceType
  deriving Repr

namespace Signature

def isDelimiter (c : Char) : Bool :=
  c = '.' || c = ';' || c = '[' || c = '/' || c = '<' || c = '>' || c = ':'

def identifier : Rule String := Rule.run fun c => !isDelimiter c

def baseType : Rule SourceType
  | 'B' :: rest => some (.primitive .byte, rest)
  | 'C' :: rest => some (.primitive .char, rest)
  | 'D' :: rest => some (.primitive .double, rest)
  | 'F' :: rest => some (.primitive .float, rest)
  | 'I' :: rest => some (.primitive .int, rest)
  | 'J' :: rest => some (.primitive .long, rest)
  | 'S' :: rest => some (.primitive .short, rest)
  | 'Z' :: rest => some (.primitive .boolean, rest)
  | _ => none

/-! The rules below take the rule for reference types as an argument. -/

def typeArgument (reference : Rule SourceType) : Rule SourceType :=
  ((Rule.char '*').map fun _ => .wildcard none true)
    |>.orElse ((Rule.after '+' reference).map fun t => .wildcard (some t) true)
    |>.orElse ((Rule.after '-' reference).map fun t => .wildcard (some t) false)
    |>.orElse reference

def typeArguments (reference : Rule SourceType) : Rule (List SourceType) :=
  ((Rule.many1 (typeArgument reference)).before '>').after '<'

def simpleClass (reference : Rule SourceType) : Rule (String × List SourceType) := fun s => do
  let (name, s) ← identifier s
  let (args, s) ← Rule.optional (typeArguments reference) s
  return ((name, args.getD []), s)

/-- Package segments, the outermost class, then member classes. -/
def classType (reference : Rule SourceType) : Rule SourceType := fun s => do
  let (_, s) ← Rule.char 'L' s
  let (segments, s) ← Rule.many (identifier.before '/') s
  let ((name, args), s) ← simpleClass reference s
  let (members, s) ← Rule.many (Rule.after '.' (simpleClass reference)) s
  let (_, s) ← Rule.char ';' s
  let package := if segments.isEmpty then none else some (".".intercalate segments)
  let outer : SourceType := .classType package name args none
  return (members.foldl (fun owner (name, args) => .classType package name args (some owner)) outer, s)

def typeVariable : Rule SourceType :=
  ((identifier.before ';').after 'T').map .typeVar

def referenceUpTo : Nat → Rule SourceType
  | 0 => fun _ => none
  | n + 1 =>
      (classType (referenceUpTo n)).orElse (typeVariable.orElse
        ((Rule.after '[' (baseType.orElse (referenceUpTo n))).map .array))

/-- A class type, a type variable or an array type. Every level of nesting takes a character. -/
def referenceType : Rule SourceType := fun s => referenceUpTo s.length s

def javaType : Rule SourceType := baseType.orElse referenceType

def typeParameter : Rule TypeParameter := fun s => do
  let (name, s) ← identifier s
  let (classBound, s) ← Rule.after ':' (Rule.optional referenceType) s
  let (interfaceBounds, s) ← Rule.many (Rule.after ':' referenceType) s
  return (⟨name, classBound.toList ++ interfaceBounds⟩, s)

def typeParameters : Rule (List TypeParameter) :=
  (Rule.optional (((Rule.many1 typeParameter).before '>').after '<')).map (Option.getD · [])

def anyClassType : Rule SourceType := fun s => classType referenceType s

def classSignature : Rule ClassSignature := fun s => do
  let (typeParameters, s) ← typeParameters s
  let (superClass, s) ← anyClassType s
  let (interfaces, s) ← Rule.many anyClassType s
  return (⟨typeParameters, superClass, interfaces⟩, s)

def methodSignature : Rule MethodSignature := fun s => do
  let (typeParameters, s) ← typeParameters s
  let (params, s) ← ((Rule.many javaType).before ')').after '(' s
  let (result, s) ← ((Rule.char 'V').map fun _ => SourceType.void).orElse javaType s
  let (throws, s) ← Rule.many (Rule.after '^' (anyClassType.orElse typeVariable)) s
  return (⟨typeParameters, params, result, throws⟩, s)

def parseClass? (text : String) : Option ClassSignature := Rule.whole classSignature text

def parseMethod? (text : String) : Option MethodSignature := Rule.whole methodSignature text

def parseField? (text : String) : Option SourceType := Rule.whole referenceType text

end Signature

end JvmLift
