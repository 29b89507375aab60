import JvmLift.ClassFile.Attribute
import JvmLift.Expr.Basic

/-!
Names and declared types of local slots.
-/
namespace JvmLift

structure ScopedLocal where
  slot : UInt16
  start : Nat
  stop : Nat
  name : String
  ty : ErasedType
  deriving DecidableEq, Repr

/-- Scoped names, with parameter names as a fallback; of equal slots the first parameter counts. -/
structure Locals where
  named : List ScopedLocal
  params : List (UInt16 × String × ErasedType)
  deriving DecidableEq, Repr

namespace ScopedLocal

def liveAt (l : ScopedLocal) (pc : Nat) : Bool := l.start ≤ pc && pc < l.stop

def startsAfter (l : ScopedLocal) (pc : Nat) : Bool := pc < l.start && l.start ≤ pc + 4

/-- Is the name in scope at an offset or within the next few bytes? -/
def near (l : ScopedLocal) (pc : Nat) : Bool := l.start ≤ pc + 4 && pc < l.stop

end ScopedLocal

namespace Locals

def empty : Locals := ⟨[], []⟩

/-- Rows whose name can be read; a type that cannot be read is unknown. -/
def ofRows (pool : Pool) (rows : List LocalRow) : List ScopedLocal :=
  rows.filterMap fun row => do
    let name ← pool.utf8? row.nameIndex
    let ty := ((pool.utf8? row.typeIndex).bind Descriptor.parseType?).getD .unknown
    return ⟨row.slot, row.startPc.toNat, row.startPc.toNat + row.length.toNat, name, ty⟩

def ofCode (pool : Pool) (c : Code) : Locals := ⟨ofRows pool ((c.localRows? pool).getD []), []⟩

def withParameter (ls : Locals) (slot : UInt16) (name : String) (ty : ErasedType) : Locals :=
  { ls with params := (slot, name, ty) :: ls.params }

/-- Name and type of a slot at an offset. A store prefers the name whose scope it opens, and parameter
names count only for slots without a scoped name. -/
def lookup (ls : Locals) (slot : UInt16) (pc : Nat) (isStore : Bool) : Option (String × ErasedType) :=
  match ls.named.filter (·.slot == slot) with
  | [] => ls.params.lookup slot
  | own =>
      let opened := if isStore then own.find? (·.startsAfter pc) else none
      let found := (opened.or (own.find? (·.liveAt pc))).or (own.find? (·.near pc))
      found.map fun l => (l.name, l.ty)

/-- The variable a slot is at an offset; the kind gives its type when no name does. -/
def var (ls : Locals) (slot : UInt16) (kind : ValueKind) (pc : Nat) (isStore : Bool) : LocalVar :=
  match ls.lookup slot pc isStore with
  | some (name, ty) => .ofSlot slot (some name) ty
  | none => .ofSlot slot none (.ofValueKind kind)

end Locals

end JvmLift
