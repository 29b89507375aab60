import JvmLift.ClassFile.Basic
import JvmLift.Instruction.Decode
import JvmLift.Type.Descriptor

/-!
What a class says about its supertypes, its members and the ordinals it stores.
-/
namespace JvmLift

/-- Number of parameters of a descriptor, or the most that a 64-bit word can hold if it is malformed.
-/
def arityOf (descriptor : String) : Nat :=
  match Descriptor.parseMethod? descriptor with
  | some t => t.params.length
  | none => 0xFFFFFFFFFFFFFFFF

abbrev OrdinalMap := List (Int32 × String)

def OrdinalMap.insert (value : Int32) (constant : String) : OrdinalMap → OrdinalMap
  | [] => [(value, constant)]
  | (v, c) :: rest =>
      if value.toInt < v.toInt then (value, constant) :: (v, c) :: rest
      else if value = v then (value, constant) :: rest
      else (v, c) :: OrdinalMap.insert value constant rest

namespace OrdinalMap

def memberName? (pool : Pool) (index : UInt16) : Option String :=
  ((pool.memberRef index).toOption).map (·.name)

/-- Does an instruction load the ordinal array: the named field, or a local in its filling method? -/
def loads (pool : Pool) (member : String) (inMethod : Bool) (i : Instruction) : Bool :=
  match i.op with
  | .getStatic index => !inMethod && memberName? pool index == some member
  | .load .reference _ => inMethod
  | _ => false

/-- One entry: load the array, load the constant, take its ordinal, push the value, store. -/
def entry? (pool : Pool) (member : String) (inMethod : Bool) :
    List Instruction → Option (Int32 × String)
  | a :: b :: c :: d :: e :: _ =>
      if !loads pool member inMethod a then none
      else
        match b.op, c.op, d.op, e.op with
        | .getStatic field, .invokeVirtual method, .intConst value, .arrayStore _ =>
            if memberName? pool method == some "ordinal" then
              (memberName? pool field).map (value, ·)
            else none
        | _, _, _, _ => none
  | _ => none

/-- Entries that some code stores, later ones replacing earlier ones of the same value. -/
def collect (pool : Pool) (member : String) (inMethod : Bool) :
    OrdinalMap → List Instruction → OrdinalMap
  | found, [] => found
  | found, i :: rest =>
      let found :=
        match entry? pool member inMethod (i :: rest) with
        | some (value, constant) => found.insert value constant
        | none => found
      collect pool member inMethod found rest

end OrdinalMap

namespace ClassFile

def super? (c : ClassFile) : Option String := c.superName.toOption.join

/-- Direct interfaces and superclass. Interfaces count only when all of them can be named. -/
def parents (c : ClassFile) : List String := c.interfaceNames.toOption.getD [] ++ c.super?.toList

def descriptorsOf (c : ClassFile) (name : String) (arity : Nat) : List String :=
  c.methods.filterMap fun m => do
    let n ← c.pool.utf8? m.nameIndex
    if n ≠ name then none
    let d ← c.pool.utf8? m.descriptorIndex
    if arityOf d = arity then some d else none

def fieldType? (c : ClassFile) (name : String) : Option ErasedType :=
  c.fields.findSome? fun f => do
    let n ← c.pool.utf8? f.nameIndex
    if n ≠ name then none
    let d ← c.pool.utf8? f.descriptorIndex
    Descriptor.parseType? d

/-- The map behind an enum switch, filled by the method of that name or by the static initializer. -/
def ordinals? (c : ClassFile) (member : String) : Option OrdinalMap := do
  let own := c.findMethod? member none
  let m ← own.or (c.findMethod? "<clinit>" none)
  let code ← m.code? c.pool
  let instructions ← (Instruction.decodeAll code.code).toOption
  match OrdinalMap.collect c.pool member own.isSome [] instructions with
  | [] => none
  | entries => some entries

end ClassFile

end JvmLift
