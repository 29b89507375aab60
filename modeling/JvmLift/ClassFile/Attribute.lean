import JvmLift.ClassFile.Flags
import JvmLift.ClassFile.Pool

/-!
Attributes of classes, fields, methods and code. An attribute is stored raw; `interpret` reads its
body by the name it has in the pool. A body that is known, well formed and read to its end has a
parsed form.
-/
namespace JvmLift

structure Attribute where
  nameIndex : UInt16
  info : Bytes
  deriving DecidableEq, Repr

/-- A row of an exception table. Catch type zero catches everything. -/
structure HandlerRow where
  startPc : UInt16
  endPc : UInt16
  handlerPc : UInt16
  catchType : UInt16
  deriving DecidableEq, Repr

structure Code where
  maxStack : UInt16
  maxLocals : UInt16
  code : Bytes
  handlers : List HandlerRow
  attributes : List Attribute
  deriving DecidableEq, Repr, Inhabited

structure LineRow where
  startPc : UInt16
  line : UInt16
  deriving DecidableEq, Repr

/-- A row of a table of local variables; `typeIndex` is a descriptor or a signature. -/
structure LocalRow where
  startPc : UInt16
  length : UInt16
  nameIndex : UInt16
  typeIndex : UInt16
  slot : UInt16
  deriving DecidableEq, Repr

structure InnerClassRow where
  innerIndex : UInt16
  outerIndex : UInt16
  nameIndex : UInt16
  flags : Flags
  deriving DecidableEq, Repr

structure BootstrapRow where
  method : UInt16
  arguments : List UInt16
  deriving DecidableEq, Repr

structure ParameterRow where
  nameIndex : UInt16
  flags : UInt16
  deriving DecidableEq, Repr

/-- The value of an annotation element; constants keep the tag byte that says how to read them. -/
inductive ElementValue where
  | const (tag : Char) (index : UInt16)
  | enumConst (typeIndex nameIndex : UInt16)
  | classInfo (index : UInt16)
  | nested (typeIndex : UInt16) (elements : List (UInt16 × ElementValue))
  | array (values : List ElementValue)
  deriving Repr

structure Annotation where
  typeIndex : UInt16
  elements : List (UInt16 × ElementValue)
  deriving Repr

inductive AttributeBody where
  | code (code : Code)
  | lineNumbers (rows : List LineRow)
  | locals (rows : List LocalRow)
  | localTypes (rows : List LocalRow)
  | signature (index : UInt16)
  | exceptions (classes : List UInt16)
  | sourceFile (index : UInt16)
  | constantValue (index : UInt16)
  | innerClasses (rows : List InnerClassRow)
  | enclosingMethod (classIndex methodIndex : UInt16)
  | bootstrapMethods (rows : List BootstrapRow)
  | methodParameters (rows : List ParameterRow)
  | visibleAnnotations (annotations : List Annotation)
  | invisibleAnnotations (annotations : List Annotation)
  | synthetic
  | deprecated
  deriving Repr

namespace Attribute

open Reader

def rows {α : Type} (row : Reader α) : Reader (List α) := do
  let n ← u16
  times n.toNat row

def read : Reader Attribute := do
  let nameIndex ← u16
  let length ← u32
  let info ← take length.toNat
  return ⟨nameIndex, info⟩

def readHandler : Reader HandlerRow := HandlerRow.mk <$> u16 <*> u16 <*> u16 <*> u16

def readCode : Reader Code := do
  let maxStack ← u16
  let maxLocals ← u16
  let length ← u32
  let code ← take length.toNat
  let handlers ← rows readHandler
  let attributes ← rows read
  return ⟨maxStack, maxLocals, code, handlers, attributes⟩

def readLine : Reader LineRow := LineRow.mk <$> u16 <*> u16

def readLocal : Reader LocalRow := LocalRow.mk <$> u16 <*> u16 <*> u16 <*> u16 <*> u16

def readInnerClass : Reader InnerClassRow :=
  InnerClassRow.mk <$> u16 <*> u16 <*> u16 <*> (Flags.ofMemberClass <$> u16)

def readBootstrap : Reader BootstrapRow := BootstrapRow.mk <$> u16 <*> rows u16

def readParameter : Reader ParameterRow := ParameterRow.mk <$> u16 <*> u16

def isConstTag (c : Char) : Bool :=
  c = 'B' || c = 'C' || c = 'I' || c = 'S' || c = 'Z' || c = 'D' || c = 'F' || c = 'J' || c = 's'

def readElement (value : Reader ElementValue) : Reader (UInt16 × ElementValue) :=
  Prod.mk <$> u16 <*> value

def readValueUpTo : Nat → Reader ElementValue
  | 0 => failure
  | n + 1 => do
      let tag := Char.ofNat (← u8).toNat
      if isConstTag tag then .const tag <$> u16
      else if tag = 'e' then .enumConst <$> u16 <*> u16
      else if tag = 'c' then .classInfo <$> u16
      else if tag = '@' then .nested <$> u16 <*> rows (readElement (readValueUpTo n))
      else if tag = '[' then .array <$> rows (readValueUpTo n)
      else failure

/-- An element value. Every level of nesting takes bytes, so their number bounds the depth. -/
def readValue : Reader ElementValue := fun bytes => readValueUpTo bytes.length bytes

def readAnnotationRow : Reader Annotation := Annotation.mk <$> u16 <*> rows (readElement readValue)

/-- How the body of an attribute of this name is read; unknown names have no reader. -/
def bodyReader (name : String) : Option (Reader AttributeBody) :=
  match name with
  | "Code" => some (.code <$> readCode)
  | "LineNumberTable" => some (.lineNumbers <$> rows readLine)
  | "LocalVariableTable" => some (.locals <$> rows readLocal)
  | "LocalVariableTypeTable" => some (.localTypes <$> rows readLocal)
  | "Signature" => some (.signature <$> u16)
  | "Exceptions" => some (.exceptions <$> rows u16)
  | "SourceFile" => some (.sourceFile <$> u16)
  | "ConstantValue" => some (.constantValue <$> u16)
  | "InnerClasses" => some (.innerClasses <$> rows readInnerClass)
  | "EnclosingMethod" => some (.enclosingMethod <$> u16 <*> u16)
  | "BootstrapMethods" => some (.bootstrapMethods <$> rows readBootstrap)
  | "MethodParameters" => some do
    let n ← u8
    .methodParameters <$> times n.toNat readParameter
  | "RuntimeVisibleAnnotations" => some (.visibleAnnotations <$> rows readAnnotationRow)
  | "RuntimeInvisibleAnnotations" => some (.invisibleAnnotations <$> rows readAnnotationRow)
  | "Synthetic" => some (pure .synthetic)
  | "Deprecated" => some (pure .deprecated)
  | _ => none

/-- Reads the body by its name. Unknown attributes stay raw, and a body has to be read to its end. -/
def interpret (pool : Pool) (a : Attribute) : Except FormatFault (Option AttributeBody) := do
  let name ← pool.utf8 a.nameIndex
  match bodyReader name with
  | none => return none
  | some reader =>
      match reader a.info with
      | none => .error (.malformedAttribute name)
      | some (body, []) => return some body
      | some (_, rest) =>
          .error (.attributeLength name a.info.length (a.info.length - rest.length))

def body? (pool : Pool) (a : Attribute) : Option AttributeBody :=
  (a.interpret pool).toOption.join

def find? {α : Type} (pool : Pool) (pick : AttributeBody → Option α) (attributes : List Attribute) : Option α :=
  attributes.findSome? fun a => (a.body? pool).bind pick

end Attribute

namespace Code

def length (c : Code) : Nat := c.code.length

def lineRows? (pool : Pool) (c : Code) : Option (List LineRow) :=
  Attribute.find? pool (fun | .lineNumbers rows => some rows | _ => none) c.attributes

def localRows? (pool : Pool) (c : Code) : Option (List LocalRow) :=
  Attribute.find? pool (fun | .locals rows => some rows | _ => none) c.attributes

def localTypeRows? (pool : Pool) (c : Code) : Option (List LocalRow) :=
  Attribute.find? pool (fun | .localTypes rows => some rows | _ => none) c.attributes

end Code

structure LineTable where
  rows : List LineRow
  deriving DecidableEq, Repr

namespace LineTable

def ofCode (pool : Pool) (c : Code) : LineTable := ⟨(c.lineRows? pool).getD []⟩

/-- The row that starts last among those not after `pc`; of equal starts the later row. -/
def row? (pc : Nat) : List LineRow → Option LineRow
  | [] => none
  | r :: rest =>
      match row? pc rest with
      | some best => if r.startPc.toNat ≤ pc ∧ best.startPc < r.startPc then some r else some best
      | none => if r.startPc.toNat ≤ pc then some r else none

def line? (t : LineTable) (pc : Nat) : Option UInt16 := (row? pc t.rows).map (·.line)

end LineTable

end JvmLift
