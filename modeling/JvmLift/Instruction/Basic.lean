import JvmLift.Ieee

/-!
Decoded instructions. Operations are parametric in what a branch target is: an absolute offset in
decoded code, a distance where two pieces of code are compared.
-/
namespace JvmLift

inductive ValueKind where
  | int
  | long
  | float
  | double
  | reference
  deriving DecidableEq, Repr

/-- Element kind of an array access; `byte` also covers booleans. -/
inductive ArrayKind where
  | int
  | long
  | float
  | double
  | reference
  | byte
  | char
  | short
  deriving DecidableEq, Repr

inductive ArithOp where
  | add
  | sub
  | mul
  | div
  | rem
  | shl
  | shr
  | ushr
  | and
  | or
  | xor
  deriving DecidableEq, Repr

inductive CmpOp where
  | eq
  | ne
  | lt
  | ge
  | gt
  | le
  deriving DecidableEq, Repr

inductive NarrowKind where
  | byte
  | char
  | short
  deriving DecidableEq, Repr

/-- One operation. Operands named `index` point into the constant pool. -/
inductive Operation (τ : Type) where
  | nop
  | nullConst
  | intConst (value : Int32)
  | longConst (value : Fin 2)
  | floatConst (value : Fin 3)
  | doubleConst (value : Fin 2)
  | loadConst (index : UInt16)
  | loadWideConst (index : UInt16)
  | load (kind : ValueKind) (slot : UInt16)
  | store (kind : ValueKind) (slot : UInt16)
  | arrayLoad (kind : ArrayKind)
  | arrayStore (kind : ArrayKind)
  | pop
  | pop2
  | dup
  | dupX1
  | dupX2
  | dup2
  | dup2X1
  | dup2X2
  | swap
  | arith (kind : ValueKind) (op : ArithOp)
  | neg (kind : ValueKind)
  | increment (slot : UInt16) (amount : Int16)
  | convert (source target : ValueKind)
  | narrow (kind : NarrowKind)
  | longCompare
  | floatCompare (nanGreater : Bool)
  | doubleCompare (nanGreater : Bool)
  | ifZero (op : CmpOp) (target : τ)
  | ifIntCmp (op : CmpOp) (target : τ)
  | ifRefCmp (op : CmpOp) (target : τ)
  | ifNull (target : τ)
  | ifNonNull (target : τ)
  | goto (target : τ)
  | jsr (target : τ)
  | ret (slot : UInt16)
  | tableSwitch (default : τ) (low high : Int32) (targets : List τ)
  | lookupSwitch (default : τ) (pairs : List (Int32 × τ))
  | leave (kind : Option ValueKind)
  | getStatic (index : UInt16)
  | putStatic (index : UInt16)
  | getField (index : UInt16)
  | putField (index : UInt16)
  | invokeVirtual (index : UInt16)
  | invokeSpecial (index : UInt16)
  | invokeStatic (index : UInt16)
  | invokeInterface (index : UInt16) (count : UInt8)
  | invokeDynamic (index : UInt16)
  | new (index : UInt16)
  | newArray (code : UInt8)
  | newRefArray (index : UInt16)
  | arrayLength
  | throw
  | checkCast (index : UInt16)
  | instanceOf (index : UInt16)
  | monitorEnter
  | monitorExit
  | newMultiArray (index : UInt16) (dimensions : UInt8)
  deriving DecidableEq, Repr

/-- An operation at its place in the code. `length` counts padding and a `wide` byte too. -/
structure Instruction where
  offset : Nat
  opcode : UInt8
  length : Nat
  op : Operation Nat
  deriving DecidableEq, Repr

def CmpOp.negate : CmpOp → CmpOp
  | .eq => .ne
  | .ne => .eq
  | .lt => .ge
  | .ge => .lt
  | .gt => .le
  | .le => .gt

namespace Operation

variable {τ σ : Type}

def mapTargets (f : τ → σ) : Operation τ → Operation σ
  | .nop => .nop
  | .nullConst => .nullConst
  | .intConst v => .intConst v
  | .longConst v => .longConst v
  | .floatConst v => .floatConst v
  | .doubleConst v => .doubleConst v
  | .loadConst i => .loadConst i
  | .loadWideConst i => .loadWideConst i
  | .load k n => .load k n
  | .store k n => .store k n
  | .arrayLoad k => .arrayLoad k
  | .arrayStore k => .arrayStore k
  | .pop => .pop
  | .pop2 => .pop2
  | .dup => .dup
  | .dupX1 => .dupX1
  | .dupX2 => .dupX2
  | .dup2 => .dup2
  | .dup2X1 => .dup2X1
  | .dup2X2 => .dup2X2
  | .swap => .swap
  | .arith k op => .arith k op
  | .neg k => .neg k
  | .increment n v => .increment n v
  | .convert a b => .convert a b
  | .narrow k => .narrow k
  | .longCompare => .longCompare
  | .floatCompare g => .floatCompare g
  | .doubleCompare g => .doubleCompare g
  | .ifZero op t => .ifZero op (f t)
  | .ifIntCmp op t => .ifIntCmp op (f t)
  | .ifRefCmp op t => .ifRefCmp op (f t)
  | .ifNull t => .ifNull (f t)
  | .ifNonNull t => .ifNonNull (f t)
  | .goto t => .goto (f t)
  | .jsr t => .jsr (f t)
  | .ret n => .ret n
  | .tableSwitch d low high ts => .tableSwitch (f d) low high (ts.map f)
  | .lookupSwitch d ps => .lookupSwitch (f d) (ps.map fun (k, t) => (k, f t))
  | .leave k => .leave k
  | .getStatic i => .getStatic i
  | .putStatic i => .putStatic i
  | .getField i => .getField i
  | .putField i => .putField i
  | .invokeVirtual i => .invokeVirtual i
  | .invokeSpecial i => .invokeSpecial i
  | .invokeStatic i => .invokeStatic i
  | .invokeInterface i c => .invokeInterface i c
  | .invokeDynamic i => .invokeDynamic i
  | .new i => .new i
  | .newArray c => .newArray c
  | .newRefArray i => .newRefArray i
  | .arrayLength => .arrayLength
  | .throw => .throw
  | .checkCast i => .checkCast i
  | .instanceOf i => .instanceOf i
  | .monitorEnter => .monitorEnter
  | .monitorExit => .monitorExit
  | .newMultiArray i d => .newMultiArray i d

/-- Where control may go, other than to the next instruction. The default of a switch comes first. -/
def targets : Operation τ → List τ
  | .ifZero _ t | .ifIntCmp _ t | .ifRefCmp _ t | .ifNull t | .ifNonNull t | .goto t | .jsr t => [t]
  | .tableSwitch d _ _ ts => d :: ts
  | .lookupSwitch d ps => d :: ps.map (·.2)
  | _ => []

/-- Keys of a table switch with their targets, counting up from `low` in 32 bits. -/
def tableCases (low : Int32) (targets : List τ) : List (Int32 × τ) :=
  targets.zipIdx.map fun (t, i) => (low + Int32.ofNat i, t)

def isConditional : Operation τ → Bool
  | .ifZero .. | .ifIntCmp .. | .ifRefCmp .. | .ifNull _ | .ifNonNull _ => true
  | _ => false

def endsFlow : Operation τ → Bool
  | .goto _ | .ret _ | .leave _ | .throw | .tableSwitch .. | .lookupSwitch .. => true
  | _ => false

def isJsr : Operation τ → Bool
  | .jsr _ => true
  | _ => false

end Operation

def Instruction.next (i : Instruction) : Nat := i.offset + i.length

end JvmLift
