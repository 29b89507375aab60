import JvmLift.ClassFile.Attribute

/-!
The class file: its raw model, how it is read from bytes, and what it says by name.
-/
namespace JvmLift

structure Member where
  flags : Flags
  nameIndex : UInt16
  descriptorIndex : UInt16
  attributes : List Attribute
  deriving DecidableEq, Repr, Inhabited

/-- A class file. `poolCount` is the announced size of the pool. -/
structure ClassFile where
  minor : UInt16
  major : UInt16
  poolCount : UInt16
  pool : Pool
  flags : Flags
  thisClass : UInt16
  superClass : UInt16
  interfaces : List UInt16
  fields : List Member
  methods : List Member
  attributes : List Attribute
  deriving DecidableEq, Repr

namespace Member

open Reader

def read : Reader Member := do
  let flags ← u16
  let nameIndex ← u16
  let descriptorIndex ← u16
  let attributes ← Attribute.rows Attribute.read
  return ⟨⟨flags⟩, nameIndex, descriptorIndex, attributes⟩

def signatureIndex? (pool : Pool) (m : Member) : Option UInt16 :=
  Attribute.find? pool (fun | .signature index => some index | _ => none) m.attributes

def constantValueIndex? (pool : Pool) (m : Member) : Option UInt16 :=
  Attribute.find? pool (fun | .constantValue index => some index | _ => none) m.attributes

def code? (pool : Pool) (m : Member) : Option Code :=
  Attribute.find? pool (fun | .code c => some c | _ => none) m.attributes

def codeFault? (pool : Pool) (m : Member) : Option FormatFault :=
  m.attributes.findSome? fun a =>
    if pool.utf8? a.nameIndex = some "Code" then
      match a.interpret pool with
      | .error fault => some fault
      | .ok _ => none
    else none

def thrown (pool : Pool) (m : Member) : List UInt16 :=
  (Attribute.find? pool (fun | .exceptions classes => some classes | _ => none) m.attributes).getD []

end Member

namespace ClassFile

open Reader

def magic : UInt32 := 0xCAFEBABE

def read : Reader ClassFile := do
  let m ← u32
  if m ≠ magic then failure
  let minor ← u16
  let major ← u16
  let poolCount ← u16
  let pool ← Pool.read poolCount
  let flags ← u16
  let thisClass ← u16
  let superClass ← u16
  let interfaces ← Attribute.rows u16
  let fields ← Attribute.rows Member.read
  let methods ← Attribute.rows Member.read
  let attributes ← Attribute.rows Attribute.read
  return ⟨minor, major, poolCount, pool, ⟨flags⟩, thisClass, superClass, interfaces, fields, methods,
    attributes⟩

/-- The class file at the start of some bytes; what follows it is ignored. -/
def parse (bytes : Bytes) : Except FormatFault ClassFile :=
  match read bytes with
  | some (c, _) => .ok c
  | none => .error .unreadable

def thisName (c : ClassFile) : Except FormatFault String := c.pool.className c.thisClass

def superName (c : ClassFile) : Except FormatFault (Option String) :=
  if c.superClass = 0 then .ok none else some <$> c.pool.className c.superClass

def interfaceNames (c : ClassFile) : Except FormatFault (List String) :=
  c.interfaces.mapM c.pool.className

def findMethod? (c : ClassFile) (name : String) (descriptor : Option String) : Option Member :=
  c.methods.find? fun m =>
    c.pool.utf8? m.nameIndex == some name &&
      (descriptor.isNone || c.pool.utf8? m.descriptorIndex == descriptor)

def signature? (c : ClassFile) : Option String :=
  Attribute.find? c.pool (fun | .signature index => c.pool.utf8? index | _ => none) c.attributes

def sourceFile? (c : ClassFile) : Option String :=
  Attribute.find? c.pool (fun | .sourceFile index => c.pool.utf8? index | _ => none) c.attributes

end ClassFile

end JvmLift
