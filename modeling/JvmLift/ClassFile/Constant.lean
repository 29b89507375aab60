import JvmLift.Bytes
import JvmLift.Ieee
import JvmLift.Text.ModifiedUtf8

/-!
Constants of the pool, in the form the class file stores them.
-/
namespace JvmLift

/-- A constant; operands named `index` point into the pool. -/
inductive Constant where
  | utf8 (bytes : Bytes)
  | integer (value : Int32)
  | float (value : Single)
  | long (value : Int64)
  | double (value : Double)
  | classRef (nameIndex : UInt16)
  | string (textIndex : UInt16)
  | fieldRef (classIndex nameAndTypeIndex : UInt16)
  | methodRef (classIndex nameAndTypeIndex : UInt16)
  | interfaceMethodRef (classIndex nameAndTypeIndex : UInt16)
  | nameAndType (nameIndex descriptorIndex : UInt16)
  | methodHandle (kind : UInt8) (referenceIndex : UInt16)
  | methodType (descriptorIndex : UInt16)
  | dynamic (bootstrap nameAndTypeIndex : UInt16)
  | invokeDynamic (bootstrap nameAndTypeIndex : UInt16)
  | module (nameIndex : UInt16)
  | package (nameIndex : UInt16)
  deriving DecidableEq, Repr

namespace Constant

def ofText (text : String) : Constant := .utf8 (ModifiedUtf8.encode text)

def isWide : Constant → Bool
  | .long _ | .double _ => true
  | _ => false

def kindName : Constant → String
  | .utf8 _ => "Utf8"
  | .integer _ => "Integer"
  | .float _ => "Float"
  | .long _ => "Long"
  | .double _ => "Double"
  | .classRef _ => "Class"
  | .string _ => "String"
  | .fieldRef .. => "FieldRef"
  | .methodRef .. => "MethodRef"
  | .interfaceMethodRef .. => "InterfaceMethodRef"
  | .nameAndType .. => "NameAndType"
  | .methodHandle .. => "MethodHandle"
  | .methodType _ => "MethodType"
  | .dynamic .. => "Dynamic"
  | .invokeDynamic .. => "InvokeDynamic"
  | .module _ => "Module"
  | .package _ => "Package"

/-- The rest of a constant whose tag has been read. Tags without a constant are refused. -/
def readBody (tag : UInt8) : Reader Constant :=
  match tag.toNat with
  | 1 => do
      let length ← Reader.u16
      .utf8 <$> Reader.take length.toNat
  | 3 => (fun v => .integer v.toInt32) <$> Reader.u32
  | 4 => (fun v => .float ⟨v⟩) <$> Reader.u32
  | 5 => (fun v => .long v.toInt64) <$> Reader.u64
  | 6 => (fun v => .double ⟨v⟩) <$> Reader.u64
  | 7 => .classRef <$> Reader.u16
  | 8 => .string <$> Reader.u16
  | 9 => .fieldRef <$> Reader.u16 <*> Reader.u16
  | 10 => .methodRef <$> Reader.u16 <*> Reader.u16
  | 11 => .interfaceMethodRef <$> Reader.u16 <*> Reader.u16
  | 12 => .nameAndType <$> Reader.u16 <*> Reader.u16
  | 15 => .methodHandle <$> Reader.u8 <*> Reader.u16
  | 16 => .methodType <$> Reader.u16
  | 17 => .dynamic <$> Reader.u16 <*> Reader.u16
  | 18 => .invokeDynamic <$> Reader.u16 <*> Reader.u16
  | 19 => .module <$> Reader.u16
  | 20 => .package <$> Reader.u16
  | _ => failure

def read : Reader Constant := do
  let tag ← Reader.u8
  readBody tag

end Constant

end JvmLift
