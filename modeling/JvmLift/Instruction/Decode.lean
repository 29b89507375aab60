import JvmLift.Bytes
import JvmLift.Fault
import JvmLift.Instruction.Basic

/-!
Decoding code arrays. The operand bytes follow the opcode; relative branch operands become absolute
offsets, which have to lie inside the code array.
-/
namespace JvmLift.Instruction

/-- Reads operands of the instruction at a known address, or says what is wrong with it. -/
abbrev Decoder := StateT Bytes (Except DecodeFault)

namespace Decoder

def operand {α : Type} (address : Nat) (r : Reader α) : Decoder α := fun bytes =>
  match r bytes with
  | some result => .ok result
  | none => .error (.truncated address)

def fail {α : Type} (fault : DecodeFault) : Decoder α := fun _ => .error fault

end Decoder

open Decoder

def valueKind : Nat → ValueKind
  | 0 => .int
  | 1 => .long
  | 2 => .float
  | 3 => .double
  | _ => .reference

def arrayKind : Nat → ArrayKind
  | 0 => .int
  | 1 => .long
  | 2 => .float
  | 3 => .double
  | 4 => .reference
  | 5 => .byte
  | 6 => .char
  | _ => .short

def cmpOp : Nat → CmpOp
  | 0 => .eq
  | 1 => .ne
  | 2 => .lt
  | 3 => .ge
  | 4 => .gt
  | _ => .le

def arithOp : Nat → ArithOp
  | 0 => .add
  | 1 => .sub
  | 2 => .mul
  | 3 => .div
  | _ => .rem

def bitOp : Nat → ArithOp
  | 0 => .shl
  | 1 => .shr
  | 2 => .ushr
  | 3 => .and
  | 4 => .or
  | _ => .xor

def conversion : Nat → ValueKind × ValueKind
  | 0 => (.int, .long)
  | 1 => (.int, .float)
  | 2 => (.int, .double)
  | 3 => (.long, .int)
  | 4 => (.long, .float)
  | 5 => (.long, .double)
  | 6 => (.float, .int)
  | 7 => (.float, .long)
  | 8 => (.float, .double)
  | 9 => (.double, .int)
  | 10 => (.double, .long)
  | _ => (.double, .float)

def bareOperation? (opcode : Nat) : Option (Operation Nat) :=
  match opcode with
  | 0x00 => some .nop
  | 0x01 => some .nullConst
  | 0x09 => some (.longConst 0)
  | 0x0a => some (.longConst 1)
  | 0x0b => some (.floatConst 0)
  | 0x0c => some (.floatConst 1)
  | 0x0d => some (.floatConst 2)
  | 0x0e => some (.doubleConst 0)
  | 0x0f => some (.doubleConst 1)
  | 0x57 => some .pop
  | 0x58 => some .pop2
  | 0x59 => some .dup
  | 0x5a => some .dupX1
  | 0x5b => some .dupX2
  | 0x5c => some .dup2
  | 0x5d => some .dup2X1
  | 0x5e => some .dup2X2
  | 0x5f => some .swap
  | 0x91 => some (.narrow .byte)
  | 0x92 => some (.narrow .char)
  | 0x93 => some (.narrow .short)
  | 0x94 => some .longCompare
  | 0x95 => some (.floatCompare false)
  | 0x96 => some (.floatCompare true)
  | 0x97 => some (.doubleCompare false)
  | 0x98 => some (.doubleCompare true)
  | 0xb1 => some (.leave none)
  | 0xbe => some .arrayLength
  | 0xbf => some .throw
  | 0xc2 => some .monitorEnter
  | 0xc3 => some .monitorExit
  | n =>
      if 0x02 ≤ n ∧ n ≤ 0x08 then some (.intConst (Int32.ofInt (n - 3)))
      else if 0x1a ≤ n ∧ n ≤ 0x2d then
        some (.load (valueKind ((n - 0x1a) / 4)) (UInt16.ofNat ((n - 0x1a) % 4)))
      else if 0x2e ≤ n ∧ n ≤ 0x35 then some (.arrayLoad (arrayKind (n - 0x2e)))
      else if 0x3b ≤ n ∧ n ≤ 0x4e then
        some (.store (valueKind ((n - 0x3b) / 4)) (UInt16.ofNat ((n - 0x3b) % 4)))
      else if 0x4f ≤ n ∧ n ≤ 0x56 then some (.arrayStore (arrayKind (n - 0x4f)))
      else if 0x60 ≤ n ∧ n ≤ 0x73 then
        some (.arith (valueKind ((n - 0x60) % 4)) (arithOp ((n - 0x60) / 4)))
      else if 0x74 ≤ n ∧ n ≤ 0x77 then some (.neg (valueKind (n - 0x74)))
      else if 0x78 ≤ n ∧ n ≤ 0x83 then
        some (.arith (valueKind ((n - 0x78) % 2)) (bitOp ((n - 0x78) / 2)))
      else if 0x85 ≤ n ∧ n ≤ 0x90 then
        some (.convert (conversion (n - 0x85)).1 (conversion (n - 0x85)).2)
      else if 0xac ≤ n ∧ n ≤ 0xb0 then some (.leave (some (valueKind (n - 0xac))))
      else none

def indexed? (opcode : Nat) : Option (UInt16 → Operation Nat) :=
  match opcode with
  | 0x13 => some .loadConst
  | 0x14 => some .loadWideConst
  | 0xb2 => some .getStatic
  | 0xb3 => some .putStatic
  | 0xb4 => some .getField
  | 0xb5 => some .putField
  | 0xb6 => some .invokeVirtual
  | 0xb7 => some .invokeSpecial
  | 0xb8 => some .invokeStatic
  | 0xbb => some .new
  | 0xbd => some .newRefArray
  | 0xc0 => some .checkCast
  | 0xc1 => some .instanceOf
  | _ => none

/-- Operations on a local slot that have a one-byte and, after `wide`, a two-byte form. -/
def slotted? (opcode : Nat) : Option (UInt16 → Operation Nat) :=
  if 0x15 ≤ opcode ∧ opcode ≤ 0x19 then some (.load (valueKind (opcode - 0x15)))
  else if 0x36 ≤ opcode ∧ opcode ≤ 0x3a then some (.store (valueKind (opcode - 0x36)))
  else if opcode = 0xa9 then some .ret
  else none

def branching? (opcode : Nat) : Option (Nat → Operation Nat) :=
  if 0x99 ≤ opcode ∧ opcode ≤ 0x9e then some (.ifZero (cmpOp (opcode - 0x99)))
  else if 0x9f ≤ opcode ∧ opcode ≤ 0xa4 then some (.ifIntCmp (cmpOp (opcode - 0x9f)))
  else if 0xa5 ≤ opcode ∧ opcode ≤ 0xa6 then some (.ifRefCmp (cmpOp (opcode - 0xa5)))
  else if opcode = 0xa7 then some .goto
  else if opcode = 0xa8 then some .jsr
  else if opcode = 0xc6 then some .ifNull
  else if opcode = 0xc7 then some .ifNonNull
  else none

def farBranching? (opcode : Nat) : Option (Nat → Operation Nat) :=
  match opcode with
  | 0xc8 => some .goto
  | 0xc9 => some .jsr
  | _ => none

/-- The absolute target of a distance; it has to fit in 32 bits. -/
def resolve (address : Nat) (distance : Int) : Except DecodeFault Nat :=
  let target := (address : Int) + distance
  if target < 0 ∨ 4294967295 < target then .error (.badBranchTarget address target)
  else .ok target.toNat

def resolveM (address : Nat) (distance : Int) : Decoder Nat := fun bytes => do
  let target ← resolve address distance
  return (target, bytes)

def int8 : Reader Int8 := UInt8.toInt8 <$> Reader.u8

def int16 : Reader Int16 := UInt16.toInt16 <$> Reader.u16

def int32 : Reader Int32 := UInt32.toInt32 <$> Reader.u32

/-- Skipped bytes before the operands of a switch, which start on a multiple of four. -/
def padding (address : Nat) : Nat := (4 - (address + 1) % 4) % 4

def tableSwitch (address : Nat) : Decoder (Operation Nat) := do
  let _ ← operand address (Reader.take (padding address))
  let default ← resolveM address (← operand address int32).toInt
  let low ← operand address int32
  let high ← operand address int32
  if high.toInt < low.toInt then fail (.invalidSwitch address low high)
  else
    let count := (high.toInt - low.toInt + 1).toNat
    if (← get).length < count * 4 then fail (.truncated address)
    else
      let distances ← operand address (Reader.times count int32)
      let targets ← distances.mapM fun d => resolveM address d.toInt
      return .tableSwitch default low high targets

def lookupSwitch (address : Nat) : Decoder (Operation Nat) := do
  let _ ← operand address (Reader.take (padding address))
  let default ← resolveM address (← operand address int32).toInt
  let count ← operand address int32
  if count.toInt < 0 then fail (.invalidSwitch address 0 count)
  else if (← get).length < count.toInt.toNat * 8 then fail (.truncated address)
  else
    let rows ← operand address (Reader.times count.toInt.toNat (Prod.mk <$> int32 <*> int32))
    let pairs ← rows.mapM fun (key, d) => do
      let target ← resolveM address d.toInt
      return (key, target)
    return .lookupSwitch default pairs

def wideForm (address : Nat) : Decoder (UInt8 × Operation Nat) := do
  let opcode ← operand address Reader.u8
  let slot ← operand address Reader.u16
  match slotted? opcode.toNat with
  | some op => return (opcode, op slot)
  | none =>
      if opcode = 0x84 then
        let amount ← operand address int16
        return (opcode, .increment slot amount)
      else fail (.invalidWide address opcode)

def operands (address : Nat) (opcode : UInt8) : Decoder (Operation Nat) :=
  let n := opcode.toNat
  match bareOperation? n, indexed? n, slotted? n, branching? n, farBranching? n with
  | some op, _, _, _, _ => return op
  | _, some op, _, _, _ => do
      let index ← operand address Reader.u16
      return op index
  | _, _, some op, _, _ => do
      let slot ← operand address Reader.u8
      return op slot.toUInt16
  | _, _, _, some op, _ => do
      let distance ← operand address int16
      op <$> resolveM address distance.toInt
  | _, _, _, _, some op => do
      let distance ← operand address int32
      op <$> resolveM address distance.toInt
  | _, _, _, _, _ =>
      match n with
      | 0x10 => do
          let value ← operand address int8
          return .intConst value.toInt32
      | 0x11 => do
          let value ← operand address int16
          return .intConst value.toInt32
      | 0x12 => do
          let index ← operand address Reader.u8
          return .loadConst index.toUInt16
      | 0x84 => do
          let slot ← operand address Reader.u8
          let amount ← operand address int8
          return .increment slot.toUInt16 amount.toInt16
      | 0xaa => tableSwitch address
      | 0xab => lookupSwitch address
      | 0xb9 => do
          let index ← operand address Reader.u16
          let count ← operand address Reader.u8
          let _ ← operand address Reader.u8
          return .invokeInterface index count
      | 0xba => do
          let index ← operand address Reader.u16
          let _ ← operand address Reader.u16
          return .invokeDynamic index
      | 0xbc => do
          let code ← operand address Reader.u8
          return .newArray code
      | 0xc5 => do
          let index ← operand address Reader.u16
          let dimensions ← operand address Reader.u8
          return .newMultiArray index dimensions
      | _ => fail (.unknownOpcode address opcode)

/-- Opcode and operation at an address. A `wide` byte is part of the instruction it widens. -/
def operation (address : Nat) : Decoder (UInt8 × Operation Nat) := do
  let opcode ← operand address Reader.u8
  if opcode = 0xc4 then wideForm address
  else
    let op ← operands address opcode
    return (opcode, op)

/-- The instruction at the head of `bytes`, which start at `address`, and the bytes after it. -/
def decodeAt (codeLength address : Nat) (bytes : Bytes) : Except DecodeFault (Instruction × Bytes) := do
  let ((opcode, op), rest) ← operation address bytes
  match op.targets.find? (codeLength ≤ ·) with
  | some target => .error (.badBranchTarget address target)
  | none => return (⟨address, opcode, bytes.length - rest.length, op⟩, rest)

def decode (code : Bytes) (offset : Nat) : Except DecodeFault Instruction :=
  if offset < code.length then (·.1) <$> decodeAt code.length offset (code.drop offset)
  else .error (.offsetOutOfRange offset code.length)

/-- Instructions of `bytes` from an address on, at most `n`. -/
def decodeUpTo (codeLength : Nat) : Nat → Nat → Bytes → Except DecodeFault (List Instruction)
  | 0, _, _ => .ok []
  | _ + 1, _, [] => .ok []
  | n + 1, address, bytes => do
      let (i, rest) ← decodeAt codeLength address bytes
      let is ← decodeUpTo codeLength n i.next rest
      return i :: is

/-- A whole code array, front to back. Every instruction takes a byte. -/
def decodeAll (code : Bytes) : Except DecodeFault (List Instruction) :=
  decodeUpTo code.length code.length 0 code

end JvmLift.Instruction
