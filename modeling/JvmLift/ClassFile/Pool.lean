import JvmLift.ClassFile.Constant
import JvmLift.Fault

/-!
The constant pool and the lookups that follow references through it.
-/
namespace JvmLift

/-- Slots under the indices of the class file. Slot 0 and the slot after a wide constant are empty. -/
structure Pool where
  slots : List (Option Constant)
  deriving DecidableEq, Repr, Inhabited

inductive MemberKind where
  | field
  | method
  | interfaceMethod
  deriving DecidableEq, Repr

structure MemberRef where
  kind : MemberKind
  className : String
  name : String
  descriptor : String
  deriving DecidableEq, Repr

structure CallSite where
  bootstrap : UInt16
  name : String
  descriptor : String
  deriving DecidableEq, Repr

namespace Pool

def slotsOf (c : Constant) : List (Option Constant) :=
  if c.isWide then [some c, none] else [some c]

def ofConstants (constants : List Constant) : Pool :=
  ⟨none :: constants.flatMap slotsOf⟩

def size (pool : Pool) : Nat := pool.slots.length

def isEmpty (pool : Pool) : Bool := pool.size ≤ 1

def entries (pool : Pool) : List (Nat × Constant) :=
  pool.slots.zipIdx.filterMap fun (slot, i) => slot.map (i, ·)

/-- Reads constants until `count` slots are filled; the last constant may overshoot by one. -/
def readSlots (count : Nat) : Nat → Nat → Reader (List (Option Constant))
  | 0, _ => return []
  | fuel + 1, filled =>
      if filled < count then do
        let c ← Constant.read
        let rest ← readSlots count fuel (filled + (slotsOf c).length)
        return slotsOf c ++ rest
      else return []

def read (count : UInt16) : Reader Pool := do
  let slots ← readSlots count.toNat count.toNat 1
  return ⟨none :: slots⟩

def get (pool : Pool) (index : UInt16) : Except FormatFault Constant :=
  match pool.slots[index.toNat]? with
  | none => .error (.poolIndexOutOfRange index pool.size)
  | some none => .error (.poolKindMismatch index "usable entry" "unusable slot")
  | some (some c) => .ok c

def utf8 (pool : Pool) (index : UInt16) : Except FormatFault String := do
  match ← pool.get index with
  | .utf8 bytes => return ModifiedUtf8.decode bytes
  | other => .error (.poolKindMismatch index "Utf8" other.kindName)

def className (pool : Pool) (index : UInt16) : Except FormatFault String := do
  match ← pool.get index with
  | .classRef nameIndex => pool.utf8 nameIndex
  | other => .error (.poolKindMismatch index "Class" other.kindName)

def nameAndType (pool : Pool) (index : UInt16) : Except FormatFault (String × String) := do
  match ← pool.get index with
  | .nameAndType nameIndex descriptorIndex =>
      let name ← pool.utf8 nameIndex
      let descriptor ← pool.utf8 descriptorIndex
      return (name, descriptor)
  | other => .error (.poolKindMismatch index "NameAndType" other.kindName)

def resolveMember (pool : Pool) (kind : MemberKind) (classIndex nameAndTypeIndex : UInt16) :
    Except FormatFault MemberRef := do
  let className ← pool.className classIndex
  let (name, descriptor) ← pool.nameAndType nameAndTypeIndex
  return ⟨kind, className, name, descriptor⟩

def memberRef (pool : Pool) (index : UInt16) : Except FormatFault MemberRef := do
  match ← pool.get index with
  | .fieldRef c n => pool.resolveMember .field c n
  | .methodRef c n => pool.resolveMember .method c n
  | .interfaceMethodRef c n => pool.resolveMember .interfaceMethod c n
  | other => .error (.poolKindMismatch index "member reference" other.kindName)

def callSite (pool : Pool) (index : UInt16) : Except FormatFault CallSite := do
  match ← pool.get index with
  | .invokeDynamic bootstrap nameAndTypeIndex =>
      let (name, descriptor) ← pool.nameAndType nameAndTypeIndex
      return ⟨bootstrap, name, descriptor⟩
  | other => .error (.poolKindMismatch index "InvokeDynamic" other.kindName)

def utf8? (pool : Pool) (index : UInt16) : Option String := (pool.utf8 index).toOption

end Pool

end JvmLift
